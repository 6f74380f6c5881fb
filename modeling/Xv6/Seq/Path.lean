import Xv6.Seq.DirMap
import Mathlib.Data.List.TakeWhile

/-! Path names, for a process that runs alone: `namex` looks up the elements of the path one after the other, and
gives back every lock and reference on its way. -/

namespace Xv6

open Lib List Machine Nat

/-! ### Elements of a path -/

/-- The nonempty parts between slashes, as far as they fit into an entry. -/
def components (path : List UInt8) : List (List UInt8) :=
  ((path.splitOn slash).filter (· ≠ [])).map (List.take DIRSIZ)

section Components

variable {name rest : List UInt8} (hname : ∀ c ∈ name, (c == slash) = false)
include hname

variable (rest) in
theorem splitOn_append_slash : (name ++ slash :: rest).splitOn slash = name :: rest.splitOn slash :=
  splitOnP_append_cons_of_forall_mem hname slash (beq_self_eq_true slash) rest

variable (hne : name ≠ [])
include hne

theorem components_append_slash : components (name ++ slash :: rest) = name.take DIRSIZ :: components rest := by
  rw [components, splitOn_append_slash rest hname, filter_cons_of_pos (by simpa using hne), map_cons, components]

theorem components_single : components name = [name.take DIRSIZ] := by
  have hsplit : name.splitOn slash = [name] := splitOnP_eq_singleton hname
  rw [components, hsplit, filter_cons_of_pos (by simpa using hne)]
  rfl

end Components

theorem components_slash (path : List UInt8) : components (slash :: path) = components path := by
  have hsplit : ([] ++ slash :: path).splitOn slash = [] :: path.splitOn slash := splitOn_append_slash path nofun
  rw [nil_append] at hsplit
  rw [components, hsplit]
  rfl

theorem components_dropWhile (path : List UInt8) : components (path.dropWhile (· == slash)) = components path := by
  induction path with
  | nil => rfl
  | cons c path ih =>
    rw [dropWhile_cons]
    split
    · rename_i hc
      rw [ih, beq_iff_eq.1 hc, components_slash]
    · rfl

theorem dropWhile_head (f : UInt8 → Bool) {path rest : List UInt8} {c : UInt8} (h : path.dropWhile f = c :: rest) :
    f c = false := by
  have hne : path.dropWhile f ≠ [] := by
    rw [h]
    exact cons_ne_nil c rest
  have hnot := head_dropWhile_not f hne
  simpa only [h, head_cons] using hnot

theorem components_cons {path rest : List UInt8} {c : UInt8} (hpath : path = c :: rest) (hc : (c == slash) = false) :
    components path = (path.takeWhile (· != slash)).take DIRSIZ :: components (path.dropWhile (· != slash)) := by
  have hne : path.takeWhile (· != slash) ≠ [] := by
    rw [hpath, takeWhile_cons_of_pos (by rw [bne, hc]; rfl)]
    exact cons_ne_nil _ _
  have hname : ∀ c ∈ path.takeWhile (· != slash), (c == slash) = false := by
    intro c hmem
    have hbne := mem_takeWhile_imp hmem
    rwa [bne, Bool.not_eq_true'] at hbne
  have happend := takeWhile_append_dropWhile (p := (· != slash)) (l := path)
  cases hrest : path.dropWhile (· != slash) with
  | nil =>
    rw [hrest, append_nil] at happend
    conv_lhs => rw [← happend]
    exact components_single hname hne
  | cons d rest' =>
    have hd : d = slash := by simpa using dropWhile_head (· != slash) hrest
    rw [hrest, hd] at happend
    conv_lhs => rw [← happend]
    rw [components_append_slash hname hne, hd, components_slash]

theorem components_eq_nil {path : List UInt8} : components path = [] ↔ path.dropWhile (· == slash) = [] := by
  rw [← components_dropWhile path]
  cases hpath : path.dropWhile (· == slash) with
  | nil => simp [components, List.splitOn]
  | cons c rest =>
    have hc : (c == slash) = false := dropWhile_head (· == slash) hpath
    simp [components_cons rfl hc]

theorem skipelem_eq_none {path : List UInt8} : skipelem path = none ↔ components path = [] := by
  rw [components_eq_nil]
  unfold skipelem
  simp

theorem skipelem_eq_some {path name rest : List UInt8} (h : skipelem path = some (name, rest)) :
    components path = name :: components rest ∧ (rest = [] ↔ components rest = []) ∧ rest.length < path.length := by
  unfold skipelem at h
  cases hpath : path.dropWhile (· == slash) with
  | nil =>
    rw [hpath] at h
    cases h
  | cons c tail =>
    have hc : (c == slash) = false := dropWhile_head (· == slash) hpath
    simp only [hpath, if_neg (cons_ne_nil c tail), Option.some.injEq, Prod.mk.injEq] at h
    obtain ⟨rfl, rfl⟩ := h
    refine ⟨?_, ?_, ?_⟩
    · rw [components_dropWhile, ← components_cons rfl hc, ← hpath, components_dropWhile]
    · rw [components_eq_nil]
      cases hrest : ((c :: tail).dropWhile (· != slash)).dropWhile (· == slash) with
      | nil => simp
      | cons d rest => rw [dropWhile_cons_of_neg (by rw [dropWhile_head (· == slash) hrest]; exact Bool.false_ne_true)]
    · have hsuffix := dropWhile_suffix (l := path) (· == slash)
      have hlen := hsuffix.length_le
      rw [hpath, length_cons] at hlen
      rw [dropWhile_cons_of_pos (by rw [bne, hc]; rfl)]
      have hle₁ := (dropWhile_suffix (l := tail) (· != slash)).length_le
      have hle₂ := (dropWhile_suffix (l := tail.dropWhile (· != slash)) (· == slash)).length_le
      omega

/-- The elements that `skipelem` gives one after the other. -/
def elements : Nat → List UInt8 → List (List UInt8)
  | 0, _ => []
  | fuel + 1, path => match skipelem path with
    | none => []
    | some (name, rest) => name :: elements fuel rest

theorem elements_eq : ∀ {fuel : Nat} {path : List UInt8}, path.length < fuel → elements fuel path = components path := by
  intro fuel
  induction fuel with
  | zero => intro path h; omega
  | succ fuel ih =>
    intro path h
    unfold elements
    cases hskip : skipelem path with
    | none => rw [skipelem_eq_none.1 hskip]
    | some r =>
      obtain ⟨name, rest⟩ := r
      obtain ⟨hcomp, -, hlen⟩ := skipelem_eq_some hskip
      rw [hcomp]
      simp only []
      rw [ih (by omega)]

/-! ### Walks through the tree -/

namespace Superblock

variable (sb : Superblock) (disk : Nat → Block)

/-- The inode that a directory has for a name. -/
def lookup (n : Nat) (name : List UInt8) : Option Nat := (Slots.find (cstr DIRSIZ name) (sb.entries disk n)).map Prod.snd

/-- The inode reached from inode `n` by looking up names in turn. -/
def walk : Nat → List (List UInt8) → Option Nat
  | n, [] => some n
  | n, name :: names =>
      if (sb.dinode disk n).type = T_DIR then (sb.lookup disk n name).bind fun m => walk m names else none

/-- The directory reached by all names but the last, and the last. -/
def walkParent (n : Nat) (names : List (List UInt8)) : Option (Nat × List UInt8) :=
  match names.getLast? with
  | none => none
  | some name => (sb.walk disk n names.dropLast).bind fun m =>
      if (sb.dinode disk m).type = T_DIR then some (m, name) else none

/-- The inode and the name that `namex` has in the end, when `last` is the name it saw before. -/
def namexWalk (parent : Bool) : Nat → List (List UInt8) → List UInt8 → Option (Nat × List UInt8)
  | n, [], last => if parent then none else some (n, last)
  | n, name :: names, _ =>
      if (sb.dinode disk n).type = T_DIR then
        if parent ∧ names = [] then some (n, name)
        else (sb.lookup disk n name).bind fun m => namexWalk parent m names name
      else none

variable {sb disk}

theorem namexWalk_false : ∀ (names : List (List UInt8)) (n : Nat) (last : List UInt8),
    (sb.namexWalk disk false n names last).map Prod.fst = sb.walk disk n names := by
  intro names
  induction names with
  | nil => intro n last; rfl
  | cons name names ih =>
    intro n last
    unfold namexWalk walk
    split
    · rw [if_neg (by simp)]
      cases sb.lookup disk n name with
      | none => rfl
      | some m => exact ih m name
    · rfl

theorem namexWalk_true : ∀ (names : List (List UInt8)) (n : Nat) (last : List UInt8),
    sb.namexWalk disk true n names last = sb.walkParent disk n names := by
  intro names
  induction names with
  | nil => intro n last; rfl
  | cons name names ih =>
    intro n last
    cases names with
    | nil =>
      unfold namexWalk walkParent
      rfl
    | cons name' names =>
      have hparent : ∀ m, sb.walkParent disk m (name :: name' :: names) = if (sb.dinode disk m).type = T_DIR then
            (sb.lookup disk m name).bind fun m' => sb.walkParent disk m' (name' :: names) else none := by
        intro m
        unfold walkParent
        rw [List.getLast?_cons_cons, dropLast_cons_cons, walk]
        cases (name' :: names).getLast? with
        | none => simp
        | some nm =>
          by_cases hdir : (sb.dinode disk m).type = T_DIR
          · rw [if_pos hdir, if_pos hdir]
            cases sb.lookup disk m name <;> rfl
          · rw [if_neg hdir, if_neg hdir]
            rfl
      have hnot : ¬(true = true ∧ name' :: names = []) := by simp
      rw [namexWalk, hparent, if_neg hnot]
      simp only [ih]

end Superblock

namespace FsState

open Fs

variable {P X : Type} {p : P} {sb : Superblock} {own : Nat → Option Nat} {s t u : FsState P X} {ip cwd : Fin NINODE}
  {e : Fin NINODE → Nat}

/-- An inode in use. -/
structure Live (sb : Superblock) (s : FsState P X) (n : Nat) : Prop where
  lt : n < sb.ninodes
  type : (sb.dinode s.disk n).type ≠ 0
  stays : Stays sb s n

/-- A directory tree: the entries fill the directories and name inodes in use. -/
structure Tree (sb : Superblock) (s : FsState P X) : Prop where
  root : Live sb s ROOTINO
  whole : ∀ n, n < sb.ninodes → (sb.dinode s.disk n).type = T_DIR → DIRENT ∣ (sb.dinode s.disk n).size.val
  entry : ∀ n, n < sb.ninodes → (sb.dinode s.disk n).type = T_DIR → ∀ (k : Nat) b,
    (sb.entries s.disk n)[k]? = some (some b) → Live sb s b.2

/-- The inode cache has at most one slot that is free. -/
def Crowded (s : FsState P X) : Prop := ∀ i j, s.ref i = 0 → s.ref j = 0 → i = j

/-- The process has nothing locked, and beside the references of state `s` those in `e`. -/
structure Rests (sb : Superblock) (p : P) (own : Nat → Option Nat) (s : FsState P X) (e : Fin NINODE → Nat)
    (t : FsState P X) : Prop where
  alone : Alone sb p own t
  kept : Kept s e t
  unlocked : ∀ j, (t.icache.slot j).lock = none

def one (ip : Fin NINODE) : Fin NINODE → Nat := plus (fun _ => 0) ip

theorem one_self (ip : Fin NINODE) : 0 < one ip ip := by
  rw [one, plus_self]
  exact Nat.one_pos

theorem minus_one (ip : Fin NINODE) : minus (one ip) ip = fun _ => 0 := minus_plus (fun _ => 0) ip

theorem minus_plus_one (ip next : Fin NINODE) : minus (plus (one ip) next) ip = one next := by
  by_cases h : next = ip
  · rw [h, minus_plus]
  · rw [minus_plus_of_ne _ h, minus_one]
    rfl

theorem Dropped.rests (h : Dropped sb p own s e t ip u) (hrest : ∀ j, j ≠ ip → (t.icache.slot j).lock = none) :
    Rests sb p own s (minus e ip) u := by
  refine ⟨h.alone, h.kept, fun j => ?_⟩
  by_cases hj : j = ip
  · rw [hj]
    exact h.lock
  · rw [h.rest j hj]
    exact hrest j hj

theorem Dropped.inum_eq (h : Dropped sb p own s e t ip u) (j : Fin NINODE) : u.inum j = t.inum j := by
  by_cases hj : j = ip
  · rw [hj]
    exact h.inum
  · rw [FsState.inum, h.rest j hj, FsState.inum]

theorem Unlocked.rests (h : Unlocked sb p own s e t ip u) (hrest : ∀ j, j ≠ ip → (t.icache.slot j).lock = none) :
    Rests sb p own s e u := by
  refine ⟨h.alone, h.kept, fun j => ?_⟩
  by_cases hj : j = ip
  · rw [hj]
    exact h.lock
  · rw [h.rest j hj]
    exact hrest j hj

theorem Live.stays_inum {n : Nat} (h : Live sb s n) (hn : t.inum ip = n) : Stays sb s (t.inum ip) := by
  rw [hn]
  exact h.stays

namespace Rests

theorem ref_pos (h : Rests sb p own s (one ip) t) : 0 < t.ref ip := by
  have hbase := h.kept.base ip
  have href := h.kept.ref ip
  have hone := one_self ip
  omega

end Rests

/-- Where the inode cache is full, it was nearly so before. -/
theorem Kept.crowded (h : Kept s (one ip) t) (hfull : ∀ j, t.ref j ≠ 0) : Crowded s := by
  have hzero : ∀ j, s.ref j = 0 → j = ip := by
    intro j hj
    by_contra hne
    refine hfull j ?_
    rw [h.ref j, hj, one, plus, Function.update_of_ne hne]
    rfl
  intro i j hi hj
  rw [hzero i hi, hzero j hj]

/-- `dirlookup` has found inode `m`, and gives a reference to slot `next`. -/
structure Found (sb : Superblock) (p : P) (own : Nat → Option Nat) (s : FsState P X) (e : Fin NINODE → Nat)
    (t : FsState P X) (next : Fin NINODE) (m : Nat) (u : FsState P X) : Prop where
  alone : Alone sb p own u
  kept : Kept s (plus e next) u
  inum : u.inum next = m
  lock : ∀ j, (u.icache.slot j).lock = (t.icache.slot j).lock
  inode : ∀ j, 0 < t.ref j → (u.icache.slot j).inode = (t.icache.slot j).inode
  frame : u = t.setCache u.icache

theorem Tidy.congr (h : Tidy sb own t ip) (hinode : (u.icache.slot ip).inode = (t.icache.slot ip).inode)
    (hdisk : u.disk = t.disk) : Tidy sb own u ip := by
  have hinum : u.inum ip = t.inum ip := by rw [FsState.inum, hinode, FsState.inum]
  have hmem : u.mem ip = t.mem ip := by rw [FsState.mem, hinode, FsState.mem]
  refine ⟨?_, ?_⟩
  · rw [hmem, hdisk, hinum]
    exact h.clean
  · rw [hmem, blocks, hdisk, hinum]
    exact h.intact

theorem Found.tidy {next : Fin NINODE} {m : Nat} (h : Found sb p own s e t next m u) (hpos : 0 < t.ref ip)
    (htidy : Tidy sb own t ip) : u.inum ip = t.inum ip ∧ Tidy sb own u ip := by
  have hinode := h.inode ip hpos
  exact ⟨by rw [FsState.inum, hinode, FsState.inum], htidy.congr hinode (by rw [h.frame, disk_setCache])⟩

variable [DecidableEq P] {F : Sig} {more : P → (f : F.Op) → X → Outcome X (F.Ret f)}

variable (more) in
/-- `dirlookup` of a name that is there. -/
theorem LockedDir.run_dirlookup_found (h : LockedDir sb p own t ip) (hk : Kept s e t) {name : List UInt8} {k m : Nat}
    (hfind : Slots.find (cstr DIRSIZ name) (t.entries sb ip) = some (k, m)) (hm : m < sb.ninodes)
    (htype : (sb.dinode t.disk m).type ≠ 0) :
    (∀ j, t.ref j ≠ 0) ∧ (machine more).run p (dirlookup sb ip name) t = .panic "iget: no inodes" ∨
    ∃ next u, (machine more).run p (dirlookup sb ip name) t = .ok (some (next, DIRENT * k)) u ∧
      Found sb p own s e t next m u := by
  rw [h.run_dirlookup more name, hfind, answer]
  rcases h.alone.iget hk hm htype with ⟨hfull, hget⟩ | ⟨next, c, hget, halone, hkept, hinum, hlock, hinode⟩
  · rw [hget]
    exact Or.inl ⟨hfull, rfl⟩
  · rw [hget]
    exact Or.inr ⟨next, _, rfl, halone, hkept, hinum, hlock, hinode, rfl⟩

/-- `namex` ends where the walk does: with one reference to the inode, or with none. -/
def NamexAt (sb : Superblock) (p : P) (own : Nat → Option Nat) (s : FsState P X) (w : Option (Nat × List UInt8)) :
    Option (Fin NINODE × List UInt8) → FsState P X → Prop
  | none, t => w = none ∧ Rests sb p own s (fun _ => 0) t
  | some (ip, name), t => w = some (t.inum ip, name) ∧ Rests sb p own s (one ip) t ∧ Live sb s (t.inum ip)

/-- The process is at work on the inode in slot `ip`, which is inode `n`: this is all that it has locked. -/
structure Inside (sb : Superblock) (p : P) (own : Nat → Option Nat) (s : FsState P X) (ip : Fin NINODE) (n : Nat)
    (t : FsState P X) : Prop where
  alone : Alone sb p own t
  kept : Kept s (one ip) t
  lock : (t.icache.slot ip).lock = some p
  other : ∀ j, j ≠ ip → (t.icache.slot j).lock = none
  tidy : Tidy sb own t ip
  inum : t.inum ip = n

variable (more) in
theorem Rests.run_ilock (h : Rests sb p own s (one ip) t) :
    ∃ u, (machine more).run p (ilock sb ip) t = .ok () u ∧ Inside sb p own s ip (t.inum ip) u := by
  obtain ⟨u, hrun, hin⟩ := FsState.run_ilock more h.alone h.kept (h.unlocked ip) h.ref_pos
  refine ⟨u, hrun, hin.alone, hin.kept, hin.lock, fun j hj => ?_, hin.tidy, hin.inum⟩
  rw [hin.rest j hj]
  exact h.unlocked j

namespace Inside

variable {n : Nat} (h : Inside sb p own s ip n t)
include h

section

omit [DecidableEq P]

theorem mem_eq : t.mem ip = sb.dinode s.disk n := by rw [h.tidy.clean, h.kept.disk, h.inum]

theorem type_eq : (t.icache.slot ip).inode.type = (sb.dinode s.disk n).type := by
  rw [← h.mem_eq]
  rfl

theorem entries_eq : t.entries sb ip = sb.entries s.disk n := by rw [entries, h.kept.disk, h.inum]

theorem ref_pos : 0 < t.ref ip := (h.alone.locked ip h.lock).1

theorem lockedDir (htree : Tree sb s) (hn : n < sb.ninodes) (htype : (sb.dinode s.disk n).type = T_DIR) :
    LockedDir sb p own t ip := by
  refine ⟨h.alone, h.lock, h.tidy.clean, h.tidy.intact.mapped, h.tidy.intact.full, by rw [h.mem_eq]; exact htype, ?_⟩
  rw [h.mem_eq]
  exact htree.whole n hn htype

theorem rests_iunlock : Rests sb p own s (one ip) (t.setCache (t.icache.releasesleep ip)) ∧
    (t.setCache (t.icache.releasesleep ip)).inum ip = n := by
  have hout := h.alone.iunlock h.kept h.lock h.tidy
  exact ⟨hout.rests h.other, hout.inum.trans h.inum⟩

end

variable (more) in
theorem run_iunlockput (hlive : Live sb s n) :
    ∃ u, (machine more).run p (iunlockput sb ip) t = .ok () u ∧ Rests sb p own s (fun _ => 0) u := by
  obtain ⟨u, hrun, hdrop⟩ := FsState.run_iunlockput more h.alone h.kept h.lock h.tidy (one_self ip)
    (hlive.stays_inum h.inum)
  have hrests := hdrop.rests h.other
  rw [minus_one] at hrests
  exact ⟨u, hrun, hrests⟩

variable (more) in
theorem run_step (htree : Tree sb s) (hlive : Live sb s n) (htype : (sb.dinode s.disk n).type = T_DIR)
    {name : List UInt8} {k m : Nat} (hfind : Slots.find (cstr DIRSIZ name) (sb.entries s.disk n) = some (k, m)) :
    Crowded s ∧ (machine more).run p (dirlookup sb ip name) t = .panic "iget: no inodes" ∨
    ∃ next u v, (machine more).run p (dirlookup sb ip name) t = .ok (some (next, DIRENT * k)) u ∧
      (machine more).run p (iunlockput sb ip) u = .ok () v ∧ Rests sb p own s (one next) v ∧ v.inum next = m := by
  have hm := htree.entry n hlive.lt htype k _ (Slots.getElem?_of_find hfind)
  rcases (h.lockedDir htree hlive.lt htype).run_dirlookup_found more h.kept (by rw [h.entries_eq]; exact hfind) hm.lt
      (by rw [h.kept.disk]; exact hm.type) with ⟨hfull, hpanic⟩ | ⟨next, u, hok, hfound⟩
  · exact Or.inl ⟨h.kept.crowded hfull, hpanic⟩
  · obtain ⟨hinum, htidy⟩ := hfound.tidy h.ref_pos h.tidy
    have hpos : 0 < plus (one ip) next ip := by
      by_cases hne : next = ip
      · rw [hne, plus_self]
        exact succ_pos _
      · rw [plus, Function.update_of_ne (Ne.symm hne)]
        exact one_self ip
    obtain ⟨v, hrun, hdrop⟩ := FsState.run_iunlockput more hfound.alone hfound.kept (by rw [hfound.lock]; exact h.lock)
      htidy hpos (hlive.stays_inum (hinum.trans h.inum))
    have hrests := hdrop.rests fun j hj => by rw [hfound.lock]; exact h.other j hj
    rw [minus_plus_one] at hrests
    refine Or.inr ⟨next, u, v, hok, hrun, hrests, ?_⟩
    rw [hdrop.inum_eq]
    exact hfound.inum

end Inside

/-- The only way for `namex` not to return. -/
def NoInodes (s : FsState P X) (msg : String) : Prop := msg = "iget: no inodes" ∧ Crowded s

variable (more) in
theorem holds_namexFrom (htree : Tree sb s) (parent : Bool) : ∀ (fuel : Nat) (path last : List UInt8) {ip : Fin NINODE}
    {t : FsState P X}, path.length < fuel → Rests sb p own s (one ip) t → Live sb s (t.inum ip) →
    ((machine more).run p (namexFrom sb parent fuel ip path last) t).Holds (NoInodes s)
      (NamexAt sb p own s (sb.namexWalk s.disk parent (t.inum ip) (components path) last)) := by
  intro fuel
  induction fuel with
  | zero => intro path last ip t hfuel; omega
  | succ fuel ih =>
    intro path last ip t hfuel h hlive
    rw [namexFrom]
    cases hskip : skipelem path with
    | none =>
      rw [skipelem_eq_none.1 hskip, Superblock.namexWalk]
      cases parent with
      | true =>
        obtain ⟨u, hrun, hdrop⟩ := run_iput more h.alone h.kept (h.unlocked ip) (one_self ip) hlive.stays
        have hrests := hdrop.rests fun j _ => h.unlocked j
        rw [minus_one] at hrests
        simp only [if_true]
        rw [run_bind_ok hrun]
        exact ⟨rfl, hrests⟩
      | false => exact ⟨rfl, h, hlive⟩
    | some r =>
      obtain ⟨name, rest⟩ := r
      obtain ⟨hcomp, hempty, hlen⟩ := skipelem_eq_some hskip
      obtain ⟨u, hrun, hin⟩ := h.run_ilock more
      obtain ⟨v, hput, hrests⟩ := hin.run_iunlockput more hlive
      simp only []
      rw [run_bind_ok hrun, run_iload, hcomp, Superblock.namexWalk, hin.type_eq]
      by_cases hdir : (sb.dinode s.disk (t.inum ip)).type = T_DIR
      · rw [if_neg (not_not.2 hdir), if_pos hdir]
        by_cases hstop : parent = true ∧ rest = []
        · obtain ⟨hout, hinum⟩ := hin.rests_iunlock
          rw [if_pos hstop, if_pos ⟨hstop.1, hempty.1 hstop.2⟩, run_iunlock hin.lock hin.ref_pos]
          exact ⟨by rw [hinum], hout, by rw [hinum]; exact hlive⟩
        · rw [if_neg hstop, if_neg fun hstop' => hstop ⟨hstop'.1, hempty.2 hstop'.2⟩, Superblock.lookup]
          cases hfind : Slots.find (cstr DIRSIZ name) (sb.entries s.disk (t.inum ip)) with
          | none =>
            have hlookup := (hin.lockedDir htree hlive.lt hdir).run_dirlookup more name
            rw [hin.entries_eq, hfind, answer] at hlookup
            rw [run_bind_ok hlookup]
            simp only []
            rw [run_bind_ok hput]
            exact ⟨rfl, hrests⟩
          | some b =>
            obtain ⟨k, m⟩ := b
            rcases hin.run_step more htree hlive hdir hfind with
              ⟨hcrowded, hpanic⟩ | ⟨next, w, x, hok, hput', hnext, hinum⟩
            · rw [run_bind, hpanic]
              exact ⟨rfl, hcrowded⟩
            · have hm := htree.entry _ hlive.lt hdir k _ (Slots.getElem?_of_find hfind)
              have hwalk := ih rest name (by omega) hnext (by rw [hinum]; exact hm)
              rw [run_bind_ok hok]
              simp only []
              rw [run_bind_ok hput']
              rw [hinum] at hwalk
              exact hwalk
      · rw [if_pos hdir, if_neg hdir, run_bind_ok hput]
        exact ⟨rfl, hrests⟩

def start (s : FsState P X) (cwd : Fin NINODE) (path : List UInt8) : Nat :=
  if path.headD 0 = slash then ROOTINO else s.inum cwd

section

variable (h : Wf sb own s) (htree : Tree sb s) (hcwd : 0 < s.ref cwd)
include h htree hcwd

theorem holds_namex (path : List UInt8) (parent : Bool) :
    ((machine more).run p (namex sb cwd path parent) s).Holds (NoInodes s)
      (NamexAt sb p own s (sb.namexWalk s.disk parent (s.start cwd path) (components path) [])) := by
  have halone : Alone sb p own s := h.alone
  unfold namex start
  split
  · rcases halone.iget (Kept.refl halone) htree.root.lt htree.root.type with
      ⟨hfull, hget⟩ | ⟨ip, c, hget, halone', hkept, hinum, hlock, -⟩
    · rw [run_iget_panic hget]
      exact ⟨rfl, fun i _ hi => absurd hi (hfull i)⟩
    · rw [run_iget hget]
      have hrests : Rests sb p own s (one ip) (s.setCache c) :=
        ⟨halone', hkept, fun j => (hlock j).trans (h.unlocked j)⟩
      have hwalk := holds_namexFrom more htree parent (path.length + 1) path [] (lt_succ_self _) hrests
        (by rw [hinum]; exact htree.root)
      rw [hinum] at hwalk
      exact hwalk
  · obtain ⟨halone', hkept⟩ := halone.idup (Kept.refl halone) hcwd
    have hslot : (s.icache.idup p cwd).slot = Function.update s.icache.slot cwd
      ((s.icache.slot cwd).setRef ((s.icache.slot cwd).ref + 1)) := rfl
    have hinum : (s.setCache (s.icache.idup p cwd)).inum cwd = s.inum cwd := by
      unfold FsState.inum
      rw [slot_setCache_self hslot]
      rfl
    have hrests : Rests sb p own s (one cwd) (s.setCache (s.icache.idup p cwd)) := by
      refine ⟨halone', hkept, fun j => ?_⟩
      by_cases hj : j = cwd
      · rw [hj, slot_setCache_self hslot]
        exact h.unlocked cwd
      · rw [slot_setCache_of_ne hslot hj]
        exact h.unlocked j
    obtain ⟨-, hlt, htype⟩ := h.used cwd hcwd
    have hwalk := holds_namexFrom more htree parent (path.length + 1) path []
      (lt_succ_self _) hrests (by rw [hinum]; exact ⟨hlt, htype, Or.inr ⟨cwd, hcwd, rfl⟩⟩)
    rw [hinum] at hwalk
    rw [run_idup]
    exact hwalk

theorem holds_namei (path : List UInt8) : ((machine more).run p (namei sb cwd path) s).Holds (NoInodes s) (fun r t =>
      match r with
      | none => sb.walk s.disk (s.start cwd path) (components path) = none ∧ Rests sb p own s (fun _ => 0) t
      | some ip => sb.walk s.disk (s.start cwd path) (components path) = some (t.inum ip) ∧
          Rests sb p own s (one ip) t ∧ Live sb s (t.inum ip)) := by
  unfold namei
  refine holds_seq (holds_namex h htree hcwd path false) ?_
  intro r t hr
  rw [← Superblock.namexWalk_false _ _ []]
  cases r with
  | none => exact ⟨by rw [hr.1]; rfl, hr.2⟩
  | some r => exact ⟨by rw [hr.1]; rfl, hr.2⟩

theorem holds_nameiparent (path : List UInt8) : ((machine more).run p (nameiparent sb cwd path) s).Holds (NoInodes s)
      (NamexAt sb p own s (sb.walkParent s.disk (s.start cwd path) (components path))) := by
  rw [← Superblock.namexWalk_true _ _ []]
  exact holds_namex h htree hcwd path true

end

variable (more p) in
/-- Path resolution. The elements of a path are its nonempty parts; `namei` and `nameiparent` look them up in turn,
from the root or the current directory on. Every reference and lock is given back, but for a reference to the inode
that is returned. They return unless the inode cache is full. -/
theorem path_resolution (h : Wf sb own s) (htree : Tree sb s) (hcwd : 0 < s.ref cwd) (path : List UInt8) :
    elements (path.length + 1) path = components path ∧
    ((machine more).run p (namei sb cwd path) s).Holds (NoInodes s) (fun r t =>
      match r with
      | none => sb.walk s.disk (s.start cwd path) (components path) = none ∧ Rests sb p own s (fun _ => 0) t
      | some ip => sb.walk s.disk (s.start cwd path) (components path) = some (t.inum ip) ∧
          Rests sb p own s (one ip) t) ∧
    ((machine more).run p (nameiparent sb cwd path) s).Holds (NoInodes s) (fun r t =>
      match r with
      | none => sb.walkParent s.disk (s.start cwd path) (components path) = none ∧ Rests sb p own s (fun _ => 0) t
      | some (ip, name) => sb.walkParent s.disk (s.start cwd path) (components path) = some (t.inum ip, name) ∧
          Rests sb p own s (one ip) t) := by
  refine ⟨elements_eq (lt_succ_self _), (holds_namei h htree hcwd path).mono fun r t hr => ?_,
    (holds_nameiparent h htree hcwd path).mono fun r t hr => ?_⟩
  · cases r with
    | none => exact hr
    | some ip => exact ⟨hr.1, hr.2.1⟩
  · cases r with
    | none => exact hr
    | some r => exact ⟨hr.1, hr.2.1⟩

end FsState

end Xv6
