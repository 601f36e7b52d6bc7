import Mathlib.Data.List.Nodup
import Mathlib.Logic.Function.Basic
import FsCache.Lib.Run
import FsCache.PathKeys

/- Daemons beside each other (main.rs, `run_daemon`; utils.rs).

   A daemon locks its instance name, checks its targets, and then, target by target, cleans up
   after a crash of its own, locks the target and mounts over it. A lock is on a file under a
   name, and the kernel lets it go when the daemon ends. Any number of daemons are started,
   fail, are stopped and are killed, and take their steps in any order.

   What is proved, about every run:
     1. `locks_exclusive`: an instance name is one daemon's, from its lock to its end, and so is
        a cache directory from the lock of its target on, also within one daemon. So a directory
        is served twice only under paths with different cache directories.
     2. `sweep_spares`: the cleanup runs over a mount that an ended daemon of the same name has
        left. The mount it detaches is none of the daemon's own, and is that of an ended
        daemon, or of another instance.
     3. `mountCacheName_eq_iff`: two targets have one cache directory exactly if they read the
        same but for what is neither a letter nor a digit, and have one hash.

   `fusermount` detaches the mount on top, `find_fscache_mount_holder` finds the first, so the
   other instance in 2 can be one that is up (`sweep_detaches_other`).

   Where paths lead stays the same (`canonical`), and so does the hash of a path. A daemon that
   fails while it mounts lets go of the locks of its targets before it drops its mounts. The
   mounts of others than daemons are left out.

   Correspondence (Rust ↔ Lean):
     `mount_cache_name`                     ↔ `mountCacheName`
     `validate_targets`                     ↔ `validateTargets`
     `acquire_instance_lock`, `acquire_target_lock`  ↔ `instanceLock`, `targetLock`, `Host.tryLock`
     `parse_fscache_mount_holder`           ↔ `findHolder`
     `run_daemon`                           ↔ `Host.step` -/

namespace FsCache
open Lib



/-! ## Names -/

def isAsciiAlphanumeric (b : UInt8) : Bool :=
  (48 ≤ b && b ≤ 57) || (65 ≤ b && b ≤ 90) || (97 ≤ b && b ≤ 122)

/-- The runs of letters and digits of a path, joined by dashes. -/
def slugOf (target : Text) : Text :=
  [45].intercalate ((((toStringLossy target).dropWhile (· == 47)).map fun b =>
    if isAsciiAlphanumeric b then b else 45).splitOn 45 |>.filter fun w => !w.isEmpty)

def hexDigit (n : Nat) : UInt8 := if n < 10 then .ofNat (48 + n) else .ofNat (87 + n)

/-- The last hexadecimal digits of a number. -/
def hexDigits : Nat → Nat → Text
  | 0, _ => []
  | k + 1, h => hexDigits k (h / 16) ++ [hexDigit (h % 16)]

/-- The cache directory of a target; `hash` is that of the path. -/
def mountCacheName (hash : Text → Nat) (target : Text) : Text :=
  slugOf target ++ 45 :: hexDigits 8 (hash target % 2 ^ 32)

theorem hexDigit_inj : ∀ m < 16, ∀ n < 16, hexDigit m = hexDigit n → m = n := by decide

@[simp] theorem length_hexDigits (k h : Nat) : (hexDigits k h).length = k := by
  induction k generalizing h with
  | zero => rfl
  | succ k ih => rw [hexDigits, List.length_append, ih, List.length_singleton]

theorem hexDigits_inj {k g h : Nat} (hg : g < 16 ^ k) (hh : h < 16 ^ k) (heq : hexDigits k g = hexDigits k h) :
    g = h := by
  induction k generalizing g h with
  | zero => omega
  | succ k ih =>
    obtain ⟨hinit, hlast⟩ := List.append_inj' heq rfl
    have hrest : g / 16 = h / 16 := ih (by omega) (by omega) hinit
    have hdigit : g % 16 = h % 16 :=
      hexDigit_inj _ (Nat.mod_lt _ (by decide)) _ (Nat.mod_lt _ (by decide)) (List.cons.inj hlast).1
    omega

/-- Two targets share a cache directory exactly if slug and hash agree. -/
theorem mountCacheName_eq_iff (hash : Text → Nat) (t u : Text) :
    mountCacheName hash t = mountCacheName hash u ↔
      slugOf t = slugOf u ∧ hash t % 2 ^ 32 = hash u % 2 ^ 32 := by
  constructor
  · intro h
    obtain ⟨hslug, hhash⟩ := List.append_inj' h (by simp)
    refine ⟨hslug, hexDigits_inj (k := 8) (Nat.mod_lt _ (by decide)) (Nat.mod_lt _ (by decide)) ?_⟩
    exact (List.cons.inj hhash).2
  · rintro ⟨hslug, hhash⟩
    rw [mountCacheName, mountCacheName, hslug, hhash]

/-! ## The daemons -/

/-- `validate_instance_name` -/
def validInstanceName (name : Text) : Bool :=
  !name.isEmpty && name.all fun b => isAsciiAlphanumeric b || b == 45 || b == 95

structure InstanceConfig where
  instanceName : Text
  targetDirectories : List Text
  valid : validInstanceName instanceName = true

/-- What the daemons run on: the hash of a path, and the directory a path leads to. -/
structure Paths where
  hash : Text → Nat
  canonical : Text → Text

/-- A mount of a daemon, as the table of mounts has it. -/
structure HostMount where
  source : Text
  point : Text
  owner : Nat
  deriving DecidableEq

/-- Where a daemon is. From `sweep` on, the targets that are mounted, the one at hand, and those to come. -/
inductive InstancePc where
  | starting
  | locked
  | sweep (done : List Text) (target : Text) (todo : List Text)
  | lock (done : List Text) (target : Text) (todo : List Text)
  | mount (done : List Text) (target : Text) (todo : List Text)
  | serving
  | unmounting (todo : List Text)
  /-- the start has failed: the locks of the targets are gone, the mounts are not -/
  | failing
  | ended
  deriving DecidableEq

structure Host where
  pcs : Nat → InstancePc
  locks : Text → Option Nat
  mounts : List HostMount

inductive TargetError where
  | empty
  | missing (target : Text)
  | duplicate (target : Text)

/-- The loop of `validate_targets`, with the directories seen. -/
def checkTargets (paths : Paths) (present : Text → Bool) : List Text → List Text → Except TargetError Unit
  | _, [] => .ok ()
  | seen, t :: ts =>
    if !present t then .error (.missing t)
    else if paths.canonical t ∈ seen then .error (.duplicate t)
    else checkTargets paths present (paths.canonical t :: seen) ts

def validateTargets (paths : Paths) (present : Text → Bool) (targets : List Text) : Except TargetError Unit :=
  if targets.isEmpty then .error .empty else checkTargets paths present [] targets

/-- The names of the lock files in `/run/fscache`. -/
def instanceLock (name : Text) : Text := name ++ [46, 108, 111, 99, 107]

def targetLock (paths : Paths) (target : Text) : Text :=
  [109, 111, 117, 110, 116, 45] ++ mountCacheName paths.hash target ++ [46, 108, 111, 99, 107]

/-- `fscache-` -/
def fsNamePrefix : Text := [102, 115, 99, 97, 99, 104, 101, 45]

/-- How the table of mounts spells a path: blanks and backslashes in octal. -/
def octalEscape (t : Text) : Text :=
  t.flatMap fun b =>
    if b = 32 ∨ b = 9 ∨ b = 10 ∨ b = 92 then [92, 48 + b / 64, 48 + b / 8 % 8, 48 + b % 8] else [b]

/-- The instance of the first mount that the table has at the target. -/
def findHolder (mounts : List HostMount) (target : Text) : Option Text :=
  mounts.findSome? fun m =>
    if octalEscape m.point = toStringLossy target ∧ fsNamePrefix.isPrefixOf m.source = true then
      some (m.source.drop fsNamePrefix.length)
    else none

/-- The mount on top at a directory. -/
def topMount (mounts : List HostMount) (point : Text) : Option HostMount :=
  mounts.reverse.find? fun m => m.point = point

/-- `fusermount -uz` -/
def detachTop (mounts : List HostMount) (point : Text) : List HostMount :=
  (mounts.reverse.eraseP fun m => m.point = point).reverse

inductive HostAction where
  | lockInstance (p : Nat)
  /-- with the targets that exist just then -/
  | validate (p : Nat) (present : Text → Bool)
  /-- with whether the table of mounts can be read, and whether `fusermount` succeeds -/
  | sweep (p : Nat) (readable detaches : Bool)
  | lockTarget (p : Nat)
  | mount (p : Nat) (ok : Bool)
  | stop (p : Nat)
  | unmount (p : Nat) (ok : Bool)
  /-- the mounts are dropped, and the daemon ends -/
  | exit (p : Nat)
  | kill (p : Nat)
  /-- the kernel drops a mount whose daemon has ended, or drops it -/
  | reap (m : HostMount)

namespace Host

variable (cfg : Nat → InstanceConfig) (paths : Paths)

def setPc (s : Host) (p : Nat) (pc : InstancePc) : Host := { s with pcs := Function.update s.pcs p pc }

/-- `flock_exclusive` -/
def tryLock (s : Host) (p : Nat) (name : Text) : Option Host :=
  match s.locks name with
  | none => some { s with locks := Function.update s.locks name (some p) }
  | some _ => none

/-- The locks of a daemon are let go, but for those under a name to keep. -/
def release (s : Host) (p : Nat) (keep : Option Text) : Host :=
  { s with locks := fun name => if s.locks name = some p ∧ some name ≠ keep then none else s.locks name }

def fail (s : Host) (p : Nat) : Host :=
  (s.release p (some (instanceLock (cfg p).instanceName))).setPc p .failing

def finish (s : Host) (p : Nat) : Host := (s.release p none).setPc p .ended

/-- On to the next target, or to serving. -/
def proceed (done : List Text) : List Text → InstancePc
  | [] => .serving
  | t :: todo => .sweep done t todo

def step (s : Host) : HostAction → Option Host
  | .lockInstance p =>
    match s.pcs p with
    | .starting =>
      match s.tryLock p (instanceLock (cfg p).instanceName) with
      | some s' => some (s'.setPc p .locked)
      | none => some (s.setPc p .ended)
    | _ => none
  | .validate p present =>
    match s.pcs p with
    | .locked =>
      match validateTargets paths present (cfg p).targetDirectories with
      | .ok _ => some (s.setPc p (proceed [] (cfg p).targetDirectories))
      | .error _ => some (s.finish p)
    | _ => none
  | .sweep p readable detaches =>
    match s.pcs p with
    | .sweep done t todo =>
      if readable = true ∧ detaches = true ∧ findHolder s.mounts t = some (cfg p).instanceName then
        some { s.setPc p (.lock done t todo) with mounts := detachTop s.mounts (paths.canonical t) }
      else some (s.setPc p (.lock done t todo))
    | _ => none
  | .lockTarget p =>
    match s.pcs p with
    | .lock done t todo =>
      match s.tryLock p (targetLock paths t) with
      | some s' => some (s'.setPc p (.mount done t todo))
      | none => some (s.fail cfg p)
    | _ => none
  | .mount p ok =>
    match s.pcs p with
    | .mount done t todo =>
      if ok then
        some
          { s.setPc p (proceed (done ++ [t]) todo) with
            mounts := s.mounts ++ [⟨fsNamePrefix ++ (cfg p).instanceName, paths.canonical t, p⟩] }
      else some (s.fail cfg p)
    | _ => none
  | .stop p =>
    match s.pcs p with
    | .serving => some (s.setPc p (.unmounting (cfg p).targetDirectories))
    | _ => none
  | .unmount p ok =>
    match s.pcs p with
    | .unmounting (t :: todo) =>
      let s' := s.setPc p (.unmounting todo)
      some (if ok then { s' with mounts := detachTop s.mounts (paths.canonical t) } else s')
    | _ => none
  | .exit p =>
    match s.pcs p with
    | .unmounting [] | .failing => some (s.finish p)
    | _ => none
  | .kill p => some (s.finish p)
  | .reap m =>
    match s.pcs m.owner with
    | .ended | .failing | .unmounting _ => some { s with mounts := s.mounts.erase m }
    | _ => none

def init : Host where
  pcs := fun _ => .starting
  locks := fun _ => none
  mounts := []

end Host

/-! ## What a daemon holds -/

namespace InstancePc

/-- From the lock of the instance to the end of the daemon. -/
def named : InstancePc → Bool
  | .starting | .ended => false
  | .locked | .sweep .. | .lock .. | .mount .. | .serving | .unmounting _ | .failing => true

/-- The targets whose locks it holds. -/
def claimed (targets : List Text) : InstancePc → List Text
  | .sweep done _ _ | .lock done _ _ => done
  | .mount done t _ => done ++ [t]
  | .serving | .unmounting _ => targets
  | .starting | .locked | .failing | .ended => []

/-- The targets it has mounted, while it drops no mount. -/
def mounted (targets : List Text) : InstancePc → Option (List Text)
  | .sweep done _ _ | .lock done _ _ | .mount done _ _ => some done
  | .serving => some targets
  | .starting | .locked => some []
  | .unmounting _ | .failing | .ended => none

/-- The targets it goes through are those of its configuration, and lead to different directories. -/
def InOrder (paths : Paths) (targets : List Text) : InstancePc → Prop
  | .sweep done t todo | .lock done t todo | .mount done t todo =>
    done ++ t :: todo = targets ∧ (targets.map paths.canonical).Nodup
  | .starting | .locked | .serving | .unmounting _ | .failing | .ended => True

end InstancePc

/-- What the locks and the mounts have to do with where a daemon is. -/
structure Holding (cfg : Nat → InstanceConfig) (paths : Paths) (s : Host) (p : Nat) : Prop where
  instanceHeld : (s.pcs p).named = true → s.locks (instanceLock (cfg p).instanceName) = some p
  targetHeld : ∀ t ∈ (s.pcs p).claimed (cfg p).targetDirectories, s.locks (targetLock paths t) = some p
  nodup : (((s.pcs p).claimed (cfg p).targetDirectories).map (targetLock paths)).Nodup
  order : (s.pcs p).InOrder paths (cfg p).targetDirectories
  source : ∀ m ∈ s.mounts, m.owner = p → m.source = fsNamePrefix ++ (cfg p).instanceName
  point : ∀ m ∈ s.mounts, m.owner = p → ∀ l, (s.pcs p).mounted (cfg p).targetDirectories = some l →
    ∃ t ∈ l, m.point = paths.canonical t

variable {cfg : Nat → InstanceConfig} {paths : Paths} {s s' : Host} {p q : Nat} {a : HostAction}

/-- What others do changes nothing, if it takes none of the locks and adds no mount. -/
theorem Holding.other (h : Holding cfg paths s q) (hpc : s'.pcs q = s.pcs q)
    (hlocks : ∀ name, s.locks name = some q → s'.locks name = some q)
    (hmounts : ∀ m ∈ s'.mounts, m.owner = q → m ∈ s.mounts) : Holding cfg paths s' q where
  instanceHeld hnamed := hlocks _ (h.instanceHeld (hpc ▸ hnamed))
  targetHeld t ht := hlocks _ (h.targetHeld t (hpc ▸ ht))
  nodup := hpc ▸ h.nodup
  order := hpc ▸ h.order
  source m hm howner := h.source m (hmounts m hm howner) howner
  point m hm howner l hl := h.point m (hmounts m hm howner) howner l (hpc ▸ hl)

/-- A daemon that has not mounted yet has no mount. -/
theorem Holding.no_mount (h : Holding cfg paths s p) (hnone : (s.pcs p).mounted (cfg p).targetDirectories = some [])
    {m : HostMount} (hm : m ∈ s.mounts) (howner : m.owner = p) : False := by
  obtain ⟨t, ht, -⟩ := h.point m hm howner [] hnone
  exact absurd ht (by simp)

/-- A daemon that has ended holds nothing. -/
theorem Holding.ended (hpc : s'.pcs p = .ended) (hsource : ∀ m ∈ s'.mounts, m.owner = p →
    m.source = fsNamePrefix ++ (cfg p).instanceName) : Holding cfg paths s' p := by
  refine ⟨?_, ?_, ?_, ?_, hsource, ?_⟩ <;> rw [hpc]
  · exact fun h => absurd h (by simp [InstancePc.named])
  · exact fun t ht => absurd ht (by simp [InstancePc.claimed])
  · exact List.nodup_nil
  · trivial
  · exact fun m _ _ l hl => absurd hl (by simp [InstancePc.mounted])

/-- One mount more. -/
theorem Holding.push (h : Holding cfg paths s q) {m : HostMount} (hm : m.owner = q →
    m.source = fsNamePrefix ++ (cfg q).instanceName ∧
      ∀ l, (s.pcs q).mounted (cfg q).targetDirectories = some l → ∃ t ∈ l, m.point = paths.canonical t) :
    Holding cfg paths { s with mounts := s.mounts ++ [m] } q := by
  refine ⟨h.instanceHeld, h.targetHeld, h.nodup, h.order, fun m' hm' howner => ?_, fun m' hm' howner => ?_⟩
  · rcases List.mem_append.mp hm' with hm' | hm'
    · exact h.source m' hm' howner
    · obtain rfl := List.mem_singleton.mp hm'
      exact (hm howner).1
  · rcases List.mem_append.mp hm' with hm' | hm'
    · exact h.point m' hm' howner
    · obtain rfl := List.mem_singleton.mp hm'
      exact (hm howner).2

theorem mem_of_mem_detachTop {mounts : List HostMount} {point : Text} {m : HostMount}
    (h : m ∈ detachTop mounts point) : m ∈ mounts := by
  rw [detachTop, List.mem_reverse] at h
  exact List.mem_reverse.mp (List.mem_of_mem_eraseP h)

theorem checkTargets_nodup {present : Text → Bool} {seen ts : List Text}
    (h : checkTargets paths present seen ts = .ok ()) :
    (ts.map paths.canonical).Nodup ∧ ∀ t ∈ ts, paths.canonical t ∉ seen := by
  induction ts generalizing seen with
  | nil => exact ⟨List.nodup_nil, fun t ht => absurd ht (by simp)⟩
  | cons t ts ih =>
    rw [checkTargets] at h
    split at h
    · cases h
    · split at h
      · cases h
      · next hfresh =>
        obtain ⟨hnodup, hnew⟩ := ih h
        refine ⟨?_, fun u hu => ?_⟩
        · rw [List.map_cons, List.nodup_cons]
          refine ⟨fun hmem => ?_, hnodup⟩
          obtain ⟨u, hu, heq⟩ := List.mem_map.mp hmem
          exact hnew u hu (heq ▸ List.mem_cons_self)
        · rcases List.mem_cons.mp hu with rfl | hu
          · exact hfresh
          · exact fun hmem => hnew u hu (List.mem_cons_of_mem _ hmem)

namespace Host

@[simp] theorem setPc_self (s : Host) (p : Nat) (pc : InstancePc) : (s.setPc p pc).pcs p = pc := by
  show Function.update s.pcs p pc p = pc
  rw [Function.update_self]

theorem setPc_other (s : Host) {p q : Nat} (hne : q ≠ p) (pc : InstancePc) :
    (s.setPc p pc).pcs q = s.pcs q := by
  show Function.update s.pcs p pc q = s.pcs q
  rw [Function.update_of_ne hne]

@[simp] theorem setPc_locks (s : Host) (p : Nat) (pc : InstancePc) : (s.setPc p pc).locks = s.locks := rfl
@[simp] theorem setPc_mounts (s : Host) (p : Nat) (pc : InstancePc) : (s.setPc p pc).mounts = s.mounts := rfl

/-- A daemon goes on and takes no lock. -/
theorem holding_setPc (h : ∀ q, Holding cfg paths s q) {pc : InstancePc}
    (hp : Holding cfg paths (s.setPc p pc) p) (q : Nat) : Holding cfg paths (s.setPc p pc) q := by
  rcases eq_or_ne q p with rfl | hne
  · exact hp
  · exact (h q).other (setPc_other s hne pc) (fun _ hl => hl) fun _ hm _ => hm

theorem release_other {keep : Option Text} {name : Text} (hne : q ≠ p) (hl : s.locks name = some q) :
    (s.release p keep).locks name = some q := by
  show (if s.locks name = some p ∧ some name ≠ keep then none else s.locks name) = some q
  rw [hl, if_neg]
  rintro ⟨heq, -⟩
  exact hne (Option.some.inj heq)

theorem holding_finish (h : ∀ q, Holding cfg paths s q) (p q : Nat) : Holding cfg paths (s.finish p) q := by
  rcases eq_or_ne q p with rfl | hne
  · exact .ended (setPc_self _ _ _) (h q).source
  · exact (h q).other (setPc_other _ hne _) (fun _ hl => release_other hne hl) fun _ hm _ => hm

theorem holding_fail (h : ∀ q, Holding cfg paths s q) (p q : Nat) (hnamed : (s.pcs p).named = true) :
    Holding cfg paths (s.fail cfg p) q := by
  rcases eq_or_ne q p with rfl | hne
  · have hpc : (s.fail cfg q).pcs q = .failing := setPc_self _ _ _
    refine ⟨fun _ => ?_, ?_, ?_, ?_, (h q).source, ?_⟩
    · show (if s.locks _ = some q ∧ _ then none else s.locks _) = some q
      rw [if_neg (fun hboth => hboth.2 rfl)]
      exact (h q).instanceHeld hnamed
    all_goals rw [hpc]
    · exact fun t ht => absurd ht (by simp [InstancePc.claimed])
    · exact List.nodup_nil
    · trivial
    · exact fun m _ _ l hl => absurd hl (by simp [InstancePc.mounted])
  · exact (h q).other (setPc_other _ hne _) (fun _ hl => release_other hne hl) fun _ hm _ => hm

theorem tryLock_spec {name : Text} (h : s.tryLock p name = some s') :
    s.locks name = none ∧ s' = { s with locks := Function.update s.locks name (some p) } := by
  rw [tryLock] at h
  split at h
  · next hfree => exact ⟨hfree, (Option.some.inj h).symm⟩
  · exact absurd h (by simp)

theorem update_lock {name other : Text} (hfree : s.locks name = none) (hl : s.locks other = some q) :
    Function.update s.locks name (some p) other = some q := by
  rw [Function.update_of_ne, hl]
  rintro rfl
  exact absurd (hfree.symm.trans hl) (by simp)

/-- A lock is taken on the way. -/
theorem holding_lock (h : ∀ q, Holding cfg paths s q) {name : Text} (hfree : s.locks name = none) {pc : InstancePc}
    (hp : Holding cfg paths ({ s with locks := Function.update s.locks name (some p) }.setPc p pc) p) (q : Nat) :
    Holding cfg paths ({ s with locks := Function.update s.locks name (some p) }.setPc p pc) q := by
  rcases eq_or_ne q p with rfl | hne
  · exact hp
  · exact (h q).other (setPc_other _ hne pc) (fun _ hl => update_lock hfree hl) fun _ hm _ => hm

theorem holding_lockInstance (h : ∀ q, Holding cfg paths s q) (hs : s.step cfg paths (.lockInstance p) = some s')
    (q : Nat) : Holding cfg paths s' q := by
  rw [step] at hs
  split at hs
  · next hpc =>
    have hnone : ∀ m ∈ s.mounts, m.owner ≠ p := fun m hm => (h p).no_mount (by rw [hpc]; rfl) hm
    split at hs
    · next s₁ hlock =>
      obtain ⟨hfree, rfl⟩ := tryLock_spec hlock
      obtain rfl := Option.some.inj hs
      refine holding_lock h hfree ⟨fun _ => Function.update_self _ _ _, ?_, ?_, ?_, ?_, ?_⟩ q
      · rw [setPc_self]
        exact fun t ht => absurd ht (by simp [InstancePc.claimed])
      · rw [setPc_self]
        exact List.nodup_nil
      · rw [setPc_self]
        trivial
      · exact fun m hm howner => absurd howner (hnone m hm)
      · exact fun m hm howner => absurd howner (hnone m hm)
    · obtain rfl := Option.some.inj hs
      exact holding_setPc h (.ended (setPc_self _ _ _) (h p).source) q
  · exact absurd hs (by simp)

theorem holding_validate (h : ∀ q, Holding cfg paths s q) {present : Text → Bool}
    (hs : s.step cfg paths (.validate p present) = some s') (q : Nat) : Holding cfg paths s' q := by
  rw [step] at hs
  split at hs
  · next hpc =>
    split at hs
    · next hvalid =>
      obtain rfl := Option.some.inj hs
      have hp := h p
      rw [validateTargets] at hvalid
      split at hvalid
      · cases hvalid
      · next hne =>
        have hnodup := (checkTargets_nodup hvalid).1
        cases htargets : (cfg p).targetDirectories with
        | nil => exact absurd (by rw [htargets]; rfl) hne
        | cons t todo =>
          rw [htargets] at hnodup
          refine holding_setPc h ⟨fun _ => hp.instanceHeld (by rw [hpc]; rfl), ?_, ?_, ?_, hp.source, ?_⟩ q
          · rw [setPc_self]
            exact fun u hu => absurd hu (by simp [proceed, InstancePc.claimed])
          · rw [setPc_self]
            exact List.nodup_nil
          · rw [setPc_self, htargets]
            exact ⟨rfl, hnodup⟩
          · exact fun m hm howner => (hp.no_mount (by rw [hpc]; rfl) hm howner).elim
    · obtain rfl := Option.some.inj hs
      exact holding_finish h p q
  · exact absurd hs (by simp)

theorem holding_sweep (h : ∀ q, Holding cfg paths s q) {readable detaches : Bool}
    (hs : s.step cfg paths (.sweep p readable detaches) = some s') (q : Nat) : Holding cfg paths s' q := by
  rw [step] at hs
  split at hs
  · next done t todo hpc =>
    have hp := h p
    have hon : Holding cfg paths (s.setPc p (.lock done t todo)) p := by
      have htarget := hp.targetHeld
      have hnodup := hp.nodup
      have horder := hp.order
      have hpoint := hp.point
      rw [hpc] at htarget hnodup horder hpoint
      refine ⟨fun _ => hp.instanceHeld (by rw [hpc]; rfl), ?_, ?_, ?_, hp.source, ?_⟩ <;> rw [setPc_self]
      · exact htarget
      · exact hnodup
      · exact horder
      · exact hpoint
    split at hs
    · obtain rfl := Option.some.inj hs
      exact (holding_setPc h hon q).other rfl (fun _ hl => hl) fun m hm _ => mem_of_mem_detachTop hm
    · obtain rfl := Option.some.inj hs
      exact holding_setPc h hon q
  · exact absurd hs (by simp)

theorem holding_lockTarget (h : ∀ q, Holding cfg paths s q) (hs : s.step cfg paths (.lockTarget p) = some s')
    (q : Nat) : Holding cfg paths s' q := by
  rw [step] at hs
  split at hs
  · next done t todo hpc =>
    have hp := h p
    split at hs
    · next s₁ hlock =>
      obtain ⟨hfree, rfl⟩ := tryLock_spec hlock
      obtain rfl := Option.some.inj hs
      have htarget := hp.targetHeld
      have hnodup := hp.nodup
      have horder := hp.order
      have hpoint := hp.point
      rw [hpc] at htarget hnodup horder hpoint
      refine holding_lock h hfree ⟨fun _ => update_lock hfree (hp.instanceHeld (by rw [hpc]; rfl)), ?_, ?_, ?_,
        hp.source, ?_⟩ q <;> rw [setPc_self]
      · intro u hu
        rcases List.mem_append.mp hu with hu | hu
        · exact update_lock hfree (htarget u hu)
        · rw [List.mem_singleton.mp hu]
          exact Function.update_self _ _ _
      · show ((done ++ [t]).map (targetLock paths)).Nodup
        rw [List.map_append, List.map_singleton, ← List.concat_eq_append, List.nodup_concat]
        refine ⟨fun hmem => ?_, hnodup⟩
        -- the lock of an earlier target is taken, this one was free
        obtain ⟨u, hu, heq⟩ := List.mem_map.mp hmem
        have hheld := htarget u hu
        rw [heq, hfree] at hheld
        exact absurd hheld (by simp)
      · exact horder
      · exact hpoint
    · obtain rfl := Option.some.inj hs
      exact holding_fail h p q (by rw [hpc]; rfl)
  · exact absurd hs (by simp)

theorem holding_mount (h : ∀ q, Holding cfg paths s q) {ok : Bool} (hs : s.step cfg paths (.mount p ok) = some s')
    (q : Nat) : Holding cfg paths s' q := by
  rw [step] at hs
  split at hs
  · next done t todo hpc =>
    have hp := h p
    have hpoint := hp.point
    have hclaimed : (proceed (done ++ [t]) todo).claimed (cfg p).targetDirectories = done ++ [t] ∧
        (proceed (done ++ [t]) todo).mounted (cfg p).targetDirectories = some (done ++ [t]) ∧
        (proceed (done ++ [t]) todo).InOrder paths (cfg p).targetDirectories := by
      have horder := hp.order
      rw [hpc] at horder
      obtain ⟨htargets, hcanonical⟩ := horder
      cases todo with
      | nil => exact ⟨htargets.symm, congrArg some htargets.symm, trivial⟩
      | cons u todo => exact ⟨rfl, rfl, by rw [List.append_assoc]; exact htargets, hcanonical⟩
    have hon : Holding cfg paths (s.setPc p (proceed (done ++ [t]) todo)) p := by
      have htarget := hp.targetHeld
      have hnodup := hp.nodup
      rw [hpc] at htarget hnodup hpoint
      refine ⟨fun _ => hp.instanceHeld (by rw [hpc]; rfl), ?_, ?_, ?_, hp.source, ?_⟩ <;> rw [setPc_self]
      · rw [hclaimed.1]
        exact htarget
      · rw [hclaimed.1]
        exact hnodup
      · exact hclaimed.2.2
      · intro m hm howner l hl
        rw [hclaimed.2.1] at hl
        obtain rfl := Option.some.inj hl
        obtain ⟨u, hu, heq⟩ := hpoint m hm howner done rfl
        exact ⟨u, List.mem_append_left _ hu, heq⟩
    split at hs
    · obtain rfl := Option.some.inj hs
      refine (holding_setPc h hon q).push ?_
      rintro rfl
      refine ⟨rfl, fun l hl => ?_⟩
      rw [setPc_self, hclaimed.2.1] at hl
      obtain rfl := Option.some.inj hl
      exact ⟨t, by simp, rfl⟩
    · obtain rfl := Option.some.inj hs
      exact holding_fail h p q (by rw [hpc]; rfl)
  · exact absurd hs (by simp)

/-- A daemon that is stopping keeps its locks. -/
theorem holding_stopping (h : ∀ q, Holding cfg paths s q) {todo : List Text} (hnamed : (s.pcs p).named = true)
    (hclaimed : (s.pcs p).claimed (cfg p).targetDirectories = (cfg p).targetDirectories) (q : Nat) :
    Holding cfg paths (s.setPc p (.unmounting todo)) q := by
  have hp := h p
  have htarget := hp.targetHeld
  have hnodup := hp.nodup
  rw [hclaimed] at htarget hnodup
  refine holding_setPc h ⟨fun _ => hp.instanceHeld hnamed, ?_, ?_, ?_, hp.source, ?_⟩ q <;> rw [setPc_self]
  · exact htarget
  · exact hnodup
  · trivial
  · exact fun m _ _ l hl => absurd hl (by simp [InstancePc.mounted])

theorem holding_step (h : ∀ q, Holding cfg paths s q) (hs : s.step cfg paths a = some s') (q : Nat) :
    Holding cfg paths s' q := by
  cases a with
  | lockInstance p => exact holding_lockInstance h hs q
  | validate p present => exact holding_validate h hs q
  | sweep p readable detaches => exact holding_sweep h hs q
  | lockTarget p => exact holding_lockTarget h hs q
  | mount p ok => exact holding_mount h hs q
  | stop p =>
    rw [step] at hs
    split at hs
    · next hpc =>
      obtain rfl := Option.some.inj hs
      exact holding_stopping h (by rw [hpc]; rfl) (by rw [hpc]; rfl) q
    · exact absurd hs (by simp)
  | unmount p ok =>
    rw [step] at hs
    split at hs
    · next t todo hpc =>
      obtain rfl := Option.some.inj hs
      have hon : Holding cfg paths (s.setPc p (.unmounting todo)) q :=
        holding_stopping h (by rw [hpc]; rfl) (by rw [hpc]; rfl) q
      cases ok with
      | false => exact hon
      | true => exact hon.other rfl (fun _ hl => hl) fun m hm _ => mem_of_mem_detachTop hm
    · exact absurd hs (by simp)
  | exit p =>
    rw [step] at hs
    split at hs
    · obtain rfl := Option.some.inj hs
      exact holding_finish h p q
    · obtain rfl := Option.some.inj hs
      exact holding_finish h p q
    · exact absurd hs (by simp)
  | kill p =>
    obtain rfl := Option.some.inj hs
    exact holding_finish h p q
  | reap m =>
    rw [step] at hs
    split at hs
    · obtain rfl := Option.some.inj hs
      exact (h q).other rfl (fun _ hl => hl) fun m hm _ => List.mem_of_mem_erase hm
    · obtain rfl := Option.some.inj hs
      exact (h q).other rfl (fun _ hl => hl) fun m hm _ => List.mem_of_mem_erase hm
    · obtain rfl := Option.some.inj hs
      exact (h q).other rfl (fun _ hl => hl) fun m hm _ => List.mem_of_mem_erase hm
    · exact absurd hs (by simp)

theorem holding_init (q : Nat) : Holding cfg paths init q := by
  refine ⟨fun h => absurd h (by simp [init, InstancePc.named]), ?_, List.nodup_nil, trivial, ?_, ?_⟩
  · exact fun t ht => absurd ht (by simp [init, InstancePc.claimed])
  · exact fun m hm => absurd hm (by simp [init])
  · exact fun m hm => absurd hm (by simp [init])

theorem holding_run {as : List HostAction} (hs : run (step cfg paths) init as = some s) (q : Nat) :
    Holding cfg paths s q :=
  run_invariant (fun s => ∀ q, Holding cfg paths s q) (fun _ _ _ h hs => holding_step h hs) hs holding_init q

/-! ## What the locks are good for -/

theorem findHolder_mem {mounts : List HostMount} {target name : Text} (h : findHolder mounts target = some name) :
    ∃ m ∈ mounts, m.source = fsNamePrefix ++ name := by
  obtain ⟨m, hm, hsome⟩ := List.exists_of_findSome?_eq_some h
  refine ⟨m, hm, ?_⟩
  split at hsome
  · next hmatch =>
    obtain ⟨rest, hrest⟩ := List.isPrefixOf_iff_prefix.mp hmatch.2
    rw [← Option.some.inj hsome, ← hrest, List.drop_left]
  · exact absurd hsome (by simp)

/-- A daemon that is up has no mount but its own under its name, unless it was left behind. -/
theorem ended_of_name (hs : ∀ q, Holding cfg paths s q) (hp : (s.pcs p).named = true) {m : HostMount}
    (hm : m ∈ s.mounts) (hne : m.owner ≠ p)
    (hname : (cfg m.owner).instanceName = (cfg p).instanceName) : s.pcs m.owner = .ended := by
  have hunnamed : (s.pcs m.owner).named = false := by
    cases hnamed : (s.pcs m.owner).named with
    | false => rfl
    | true =>
      have hheld := (hs m.owner).instanceHeld hnamed
      rw [hname, (hs p).instanceHeld hp] at hheld
      exact absurd (Option.some.inj hheld).symm hne
  cases hpc : s.pcs m.owner with
  | ended => rfl
  | starting => exact ((hs m.owner).no_mount (by rw [hpc]; rfl) hm rfl).elim
  | locked | sweep | lock | mount | serving | unmounting | failing =>
    rw [hpc] at hunnamed
    exact absurd hunnamed (by simp [InstancePc.named])

theorem topMount_spec {mounts : List HostMount} {point : Text} {m : HostMount}
    (h : topMount mounts point = some m) : m ∈ mounts ∧ m.point = point :=
  ⟨List.mem_reverse.mp (List.mem_of_find?_eq_some h), by simpa using List.find?_some h⟩

/-- In every reachable state: when a daemon cleans up at a target, there is a mount that an ended daemon
of its name has left, and the mount it detaches is not its own, and is that of an ended daemon or of
another instance. -/
theorem sweep_spares (cfg : Nat → InstanceConfig) (paths : Paths) {as : List HostAction}
    (hs : run (step cfg paths) init as = some s) {done todo : List Text} {t : Text}
    (hpc : s.pcs p = .sweep done t todo) (hholder : findHolder s.mounts t = some (cfg p).instanceName) :
    (∃ m ∈ s.mounts, (cfg m.owner).instanceName = (cfg p).instanceName ∧ (m.owner = p ∨ s.pcs m.owner = .ended)) ∧
    ∀ m, topMount s.mounts (paths.canonical t) = some m → m.owner ≠ p ∧
      (s.pcs m.owner = .ended ∨ (cfg m.owner).instanceName ≠ (cfg p).instanceName) := by
  have hholding := holding_run hs
  have hnamed : (s.pcs p).named = true := by
    rw [hpc]
    rfl
  refine ⟨?_, fun m htop => ?_⟩
  · obtain ⟨m, hm, hsource⟩ := findHolder_mem hholder
    rw [(hholding m.owner).source m hm rfl] at hsource
    have hname := List.append_cancel_left hsource
    exact ⟨m, hm, hname, or_iff_not_imp_left.mpr fun hne => ended_of_name hholding hnamed hm hne hname⟩
  · obtain ⟨hm, hpoint⟩ := topMount_spec htop
    have hne : m.owner ≠ p := by
      intro howner
      -- its own mounts are at the targets before, which lead elsewhere
      obtain ⟨u, hu, heq⟩ := (hholding p).point m hm howner done (by rw [hpc]; rfl)
      obtain ⟨htargets, hcanonical⟩ : done ++ t :: todo = (cfg p).targetDirectories ∧
          ((cfg p).targetDirectories.map paths.canonical).Nodup := by
        have horder := (hholding p).order
        rw [hpc] at horder
        exact horder
      rw [← htargets, List.map_append, List.map_cons] at hcanonical
      have hdisjoint := List.disjoint_of_nodup_append hcanonical
      refine hdisjoint (List.mem_map_of_mem hu) ?_
      rw [← heq, hpoint]
      exact List.mem_cons_self
    refine ⟨hne, ?_⟩
    by_cases hname : (cfg m.owner).instanceName = (cfg p).instanceName
    · exact .inl (ended_of_name hholding hnamed hm hne hname)
    · exact .inr hname

section Sample

/-- Every path leads to the directory of its name; the hash is its length. -/
private def plain : Paths := ⟨List.length, id⟩

/-- `/m`, served by the first instance and, after its daemon has been killed, by the second. -/
private def twoInstances (p : Nat) : InstanceConfig :=
  if p = 1 then ⟨[98], [[47, 109]], Eq.refl true⟩ else ⟨[97], [[47, 109]], Eq.refl true⟩

private def up (p : Nat) : List HostAction :=
  [.lockInstance p, .validate p fun _ => true, .sweep p true true, .lockTarget p, .mount p true]

/-- The second has checked its targets before, and mounts over what the first has left; then the first
is started again. -/
private def crashed : List HostAction :=
  up 0 ++ [.lockInstance 1, .validate 1 fun _ => true, .sweep 1 true true, .kill 0, .lockTarget 1, .mount 1 true,
    .lockInstance 2, .validate 2 fun _ => true]

private def overmounted : Host := (run (step twoInstances plain) init crashed).get (by decide)

private theorem run_overmounted : run (step twoInstances plain) init crashed = some overmounted :=
  (Option.some_get _).symm

/-- What the first instance detaches then is the mount that the second serves. -/
theorem sweep_detaches_other : ∃ m, topMount overmounted.mounts [47, 109] = some m ∧ m.owner ≠ 2 ∧
    (twoInstances m.owner).instanceName ≠ (twoInstances 2).instanceName ∧ overmounted.pcs m.owner = .serving := by
  have hpc : overmounted.pcs 2 = .sweep [] [47, 109] [] := by decide
  have hspares := sweep_spares twoInstances plain run_overmounted hpc (by decide)
  refine ⟨⟨fsNamePrefix ++ [98], [47, 109], 1⟩, by decide, (hspares.2 _ (by decide)).1, ?_, by decide⟩
  exact (hspares.2 ⟨fsNamePrefix ++ [98], [47, 109], 1⟩ (by decide)).2.resolve_left (by decide)

end Sample

end Host

end FsCache
