import Xv6.Seq.Dir
import Xv6.Seq.Image

/-! Histories of a directory. Whatever a process looks up, links and unlinks in a directory that it has locked, the
results are those of a finite map, and the entries are its table. -/

namespace Xv6

open Lib Machine

/-! ### The map -/

/-- What a process does with a directory. -/
inductive DirCall where
  | lookup (name : List UInt8)
  | link (name : List UInt8) (inum : Nat)
  | unlink (name : List UInt8)

/-- What it gets: the inode and the offset of the entry, if there is one, or the result of `dirlink`. -/
inductive DirRet where
  | entry (r : Option (Nat × Nat))
  | code (r : Int)

namespace DirCall

/-- The calls that are made: `dirlink` with the number of an inode that fits into an entry. -/
def Ok : DirCall → Prop
  | .link _ inum => 0 < inum ∧ inum < 65536
  | _ => True

/-- The calls on a finite map. -/
def eval (t : Slots (List UInt8) Nat) : DirCall → DirRet × Slots (List UInt8) Nat
  | .lookup name => (.entry ((Slots.find (cstr DIRSIZ name) t).map fun b => (b.2, DIRENT * b.1)), t)
  | .link name inum => match Slots.find (cstr DIRSIZ name) t with
    | some _ => (.code (-1), t)
    | none => (.code 0, Slots.put (cstr DIRSIZ name) inum t)
  | .unlink name => match Slots.find (cstr DIRSIZ name) t with
    | some (k, n) => (.entry (some (n, DIRENT * k)), Slots.clear k t)
    | none => (.entry none, t)

def evalAll : List DirCall → Slots (List UInt8) Nat → List DirRet × Slots (List UInt8) Nat
  | [], t => ([], t)
  | c :: cs, t => ((c.eval t).1 :: (evalAll cs (c.eval t).2).1, (evalAll cs (c.eval t).2).2)

end DirCall

/-! ### The code -/

namespace Fs

variable {H : Type} {F : Sig} (sb : Superblock) (dp : Fin NINODE)

/-- `dirlookup`, by a caller that only wants to know the inode and the offset. -/
def lookupInum (name : List UInt8) : FsM H F (Option (Nat × Nat)) := do
  let found ← dirlookup sb dp name
  match found with
  | none => pure none
  | some (ip, off) => do
      let n ← iload ip
      iput sb ip
      pure (some (n.inum, off))

/-- `sys_unlink` clears the entry at `off`. -/
def clearDirent (off : Nat) : FsM H F Unit := do
  let r ← writei sb dp (direntSrc (List.replicate DIRENT 0)) off DIRENT
  if r ≠ DIRENT then panic "unlink: writei" else pure ()

def dirCall : DirCall → FsM H F DirRet
  | .lookup name => do
      let r ← lookupInum sb dp name
      pure (.entry r)
  | .link name inum => do
      let r ← dirlink sb dp name inum
      pure (.code r)
  | .unlink name => do
      let r ← lookupInum sb dp name
      match r with
      | none => pure (.entry none)
      | some (n, off) => do
          clearDirent sb dp off
          pure (.entry (some (n, off)))

def dirCalls : List DirCall → FsM H F (List DirRet)
  | [] => pure []
  | c :: cs => do
      let r ← dirCall sb dp c
      let rs ← dirCalls cs
      pure (r :: rs)

end Fs

namespace FsState

open Fs

variable {P X : Type} [DecidableEq P] {F : Sig} {more : P → (f : F.Op) → X → Outcome X (F.Ret f)} {p : P}
  {sb : Superblock} {own : Nat → Option Nat} {s t : FsState P X} {dp : Fin NINODE}

namespace LockedDir

variable (h : LockedDir sb p own s dp)
include h

theorem holds_lookupInum (name : List UInt8) : ((machine more).run p (lookupInum sb dp name) s).Holds (fun _ => True)
    fun r t => r = (Slots.find (cstr DIRSIZ name) (s.entries sb dp)).map (fun b => (b.2, DIRENT * b.1)) ∧
      Alone sb p own t ∧ Idle s t := by
  have hrun := h.run_dirlookup more name
  unfold lookupInum
  cases hfind : Slots.find (cstr DIRSIZ name) (s.entries sb dp) with
  | none =>
    rw [hfind, answer] at hrun
    rw [run_bind_ok hrun]
    exact ⟨rfl, h.alone, Idle.refl s⟩
  | some b =>
    obtain ⟨k, n⟩ := b
    rw [hfind] at hrun
    rcases answer_cases s p k n with ⟨hpanic, -⟩ | ⟨ip, c, hget, hok⟩
    · rw [run_bind, hrun, hpanic]
      trivial
    · obtain ⟨hinum, t, hput, halone, hidle⟩ := h.alone.iget_iput more hget
      rw [hok] at hrun
      rw [run_bind_ok hrun]
      simp only []
      rw [run_iload, run_bind_ok hput]
      exact ⟨by rw [icache_setCache, hinum]; rfl, halone, hidle⟩

omit h in
/-- The process has got `r`, and the directory has the entries `t`. -/
structure Became (sb : Superblock) (p : P) (dp : Fin NINODE) (table : Slots (List UInt8) Nat) (t : FsState P X) : Prop where
  dir : ∃ own, LockedDir sb p own t dp
  op : t.op p = true
  entries : t.entries sb dp = table
  distinct : Slots.Distinct table

variable (hop : s.op p = true) (hd : Slots.Distinct (s.entries sb dp))
include hop hd

omit [DecidableEq P] in
theorem became_of_idle (halone : Alone sb p own t) (hidle : Idle s t) : Became sb p dp (s.entries sb dp) t := by
  obtain ⟨hdir, -, hentries⟩ := h.of_idle hidle halone
  exact ⟨⟨own, hdir⟩, by rw [hidle.frame]; exact hop, hentries, hd⟩

theorem holds_link {name : List UInt8} {inum : Nat} (hpos : 0 < inum) (hlt : inum < 65536) :
    ((machine more).run p (dirlink sb dp name inum) s).Holds (fun _ => True) fun r t =>
      DirRet.code r = (DirCall.eval (s.entries sb dp) (.link name inum)).1 ∧
        Became sb p dp (DirCall.eval (s.entries sb dp) (.link name inum)).2 t := by
  cases hfind : Slots.find (cstr DIRSIZ name) (s.entries sb dp) with
  | some b =>
    obtain ⟨k, n⟩ := b
    rcases answer_cases s p k n with ⟨hpanic, -⟩ | ⟨ip, c, hget, -⟩
    · have hlookup := h.run_dirlookup more name
      rw [hfind, hpanic] at hlookup
      unfold dirlink
      rw [run_bind, hlookup]
      trivial
    · obtain ⟨t, hrun, halone, hidle⟩ := h.run_dirlink_found more inum hfind hget
      have heval : DirCall.eval (s.entries sb dp) (.link name inum) = (.code (-1), s.entries sb dp) := by
        simp only [DirCall.eval, hfind]
      rw [hrun, heval]
      exact ⟨rfl, h.became_of_idle hop hd halone hidle⟩
  | none =>
    by_cases hmax : DIRENT * Slots.free (s.entries sb dp) + DIRENT ≤ MAXFILE * BSIZE
    · refine (h.holds_dirlink hop inum hfind hmax fun _ => trivial).mono ?_
      rintro r t ⟨rfl, own', hnew⟩
      have heval : DirCall.eval (s.entries sb dp) (.link name inum) =
          (.code 0, Slots.put (cstr DIRSIZ name) inum (s.entries sb dp)) := by
        simp only [DirCall.eval, hfind]
      rw [heval]
      refine ⟨rfl, ⟨own', hnew.dir⟩, by rw [hnew.works.op]; exact hop, List.ext_getElem? fun j => ?_, hd.put hfind inum⟩
      rw [hnew.entry, binding_dirent hpos hlt, Slots.getElem?_put]
    · rw [h.run_dirlink_full more inum hfind hmax]
      trivial

theorem holds_clearDirent {k : Nat} (hk : k < (s.entries sb dp).length) :
    ((machine more).run p (clearDirent sb dp (DIRENT * k)) s).Holds (fun _ => True) fun _ t =>
      Became sb p dp (Slots.clear k (s.entries sb dp)) t := by
  have hk' : k < (s.mem dp).size.val / DIRENT := by
    rw [h.entries_eq, Dinode.length_entries] at hk
    exact hk
  have hmax : DIRENT * k + DIRENT ≤ MAXFILE * BSIZE := by
    have hsize : (s.mem dp).size.val ≤ 274432 := h.size_le
    have hk'' : k < (s.mem dp).size.val / 16 := hk'
    show 16 * k + 16 ≤ 274432
    omega
  unfold clearDirent
  refine holds_seq (h.holds_entry hop (List.length_replicate ..) hk'.le hmax fun _ => trivial) ?_
  rintro r t ⟨rfl, own', hnew⟩
  rw [if_neg (not_not.2 rfl)]
  refine ⟨⟨own', hnew.dir⟩, by rw [hnew.works.op]; exact hop, List.ext_getElem? fun j => ?_, hd.clear hk⟩
  rw [hnew.entry, binding_zero, Slots.getElem?_clear _ hk]

theorem holds_dirCall {c : DirCall} (hc : c.Ok) :
    ((machine more).run p (dirCall sb dp c) s).Holds (fun _ => True) fun r t =>
      r = (c.eval (s.entries sb dp)).1 ∧ Became sb p dp (c.eval (s.entries sb dp)).2 t := by
  cases c with
  | lookup name =>
    refine holds_seq (h.holds_lookupInum name) ?_
    rintro r t ⟨rfl, halone, hidle⟩
    exact ⟨rfl, h.became_of_idle hop hd halone hidle⟩
  | link name inum =>
    refine holds_seq (h.holds_link hop hd hc.1 hc.2) ?_
    rintro r t ⟨hr, ht⟩
    exact ⟨hr, ht⟩
  | unlink name =>
    refine holds_seq (h.holds_lookupInum name) ?_
    rintro r t ⟨rfl, halone, hidle⟩
    have hbecame := h.became_of_idle hop hd halone hidle
    cases hfind : Slots.find (cstr DIRSIZ name) (s.entries sb dp) with
    | none =>
      simp only [DirCall.eval, hfind]
      exact ⟨rfl, hbecame⟩
    | some b =>
      obtain ⟨k, n⟩ := b
      obtain ⟨own', hdir⟩ := hbecame.dir
      have hk : k < (t.entries sb dp).length := by
        rw [hbecame.entries]
        exact (List.getElem?_eq_some_iff.1 (Slots.getElem?_of_find hfind)).1
      simp only [DirCall.eval, hfind]
      refine holds_seq (hdir.holds_clearDirent hbecame.op (by rw [hbecame.entries]; exact hd) hk) ?_
      intro _ u hu
      rw [hbecame.entries] at hu
      exact ⟨rfl, hu⟩

end LockedDir

variable (more) in
open LockedDir in
theorem holds_dirCalls : ∀ (cs : List DirCall) {own : Nat → Option Nat} {s : FsState P X}, (∀ c ∈ cs, c.Ok) →
    LockedDir sb p own s dp → s.op p = true → Slots.Distinct (s.entries sb dp) →
    ((machine more).run p (dirCalls sb dp cs) s).Holds (fun _ => True) fun rs t =>
      rs = (DirCall.evalAll cs (s.entries sb dp)).1 ∧ Became sb p dp (DirCall.evalAll cs (s.entries sb dp)).2 t := by
  intro cs
  induction cs with
  | nil =>
    intro own s _ h hop hd
    exact ⟨rfl, ⟨own, h⟩, hop, rfl, hd⟩
  | cons c cs ih =>
    intro own s hcs h hop hd
    refine holds_seq (h.holds_dirCall hop hd (hcs c List.mem_cons_self)) ?_
    rintro r t ⟨rfl, ht⟩
    obtain ⟨own', hdir⟩ := ht.dir
    refine holds_seq (ih (fun c' hc' => hcs c' (List.mem_cons_of_mem c hc')) hdir ht.op
      (by rw [ht.entries]; exact ht.distinct)) ?_
    rintro rs u ⟨rfl, hu⟩
    rw [ht.entries] at hu ⊢
    exact ⟨rfl, hu⟩

/-- Directories are finite maps. After any calls that returned, the results were those of the map and the entries
are its table; the names in it are distinct. `dirlookup` finds a name just if it is there, and `dirlink` of a name
that is there changes nothing. -/
theorem directory_is_map (h : LockedDir sb p own s dp) (hop : s.op p = true) (hd : Slots.Distinct (s.entries sb dp))
    (cs : List DirCall) (hcs : ∀ c ∈ cs, c.Ok) {rs : List DirRet} {t : FsState P X}
    (hrun : (machine more).run p (dirCalls sb dp cs) s = .ok rs t) :
    (rs, t.entries sb dp) = DirCall.evalAll cs (s.entries sb dp) ∧ Slots.Distinct (t.entries sb dp) ∧
    (∀ name, (∀ (k n : Nat), (t.entries sb dp)[k]? ≠ some (some (cstr DIRSIZ name, n))) →
      (machine more).run p (dirlookup sb dp name) t = .ok none t) ∧
    (∀ name (k n : Nat), (t.entries sb dp)[k]? = some (some (cstr DIRSIZ name, n)) → (∃ j, t.ref j = 0) →
      ∃ ip u, (machine more).run p (dirlookup sb dp name) t = .ok (some (ip, DIRENT * k)) u ∧ u.inum ip = n) ∧
    ∀ name inum r u, (machine more).run p (dirlink sb dp name inum) t = .ok r u →
      (∃ k n : Nat, (t.entries sb dp)[k]? = some (some (cstr DIRSIZ name, n))) → r = -1 ∧ Idle t u := by
  obtain ⟨rfl, hbecame⟩ := (holds_dirCalls more cs hcs h hop hd).of_ok hrun
  obtain ⟨own', hdir⟩ := hbecame.dir
  have hd' : Slots.Distinct (t.entries sb dp) := by
    rw [hbecame.entries]
    exact hbecame.distinct
  refine ⟨by rw [hbecame.entries], hd', fun name hnone => ?_, fun name k n hk hfree => ?_, fun name inum r u hlink hk => ?_⟩
  · rw [hdir.run_dirlookup more name, Slots.find_eq_none_iff.2 hnone, answer]
  · rw [hdir.run_dirlookup more name, (Slots.find_eq_some_iff hd').2 hk]
    rcases answer_cases t p k n with ⟨-, hfull⟩ | ⟨ip, c, hget, hok⟩
    · obtain ⟨j, hj⟩ := hfree
      exact absurd hj (hfull j)
    · exact ⟨ip, _, hok, (hdir.alone.iget_iput more hget).1⟩
  · obtain ⟨k, n, hk⟩ := hk
    have hfind := (Slots.find_eq_some_iff hd').2 hk
    rcases answer_cases t p k n with ⟨hpanic, -⟩ | ⟨ip, c, hget, -⟩
    · have hlookup := hdir.run_dirlookup more name
      rw [hfind, hpanic] at hlookup
      unfold dirlink at hlink
      rw [run_bind, hlookup] at hlink
      cases hlink
    · obtain ⟨u', hrun', -, hidle⟩ := hdir.run_dirlink_found more inum hfind hget
      rw [hrun'] at hlink
      cases hlink
      exact ⟨rfl, hidle⟩

/-- The root directory of the smallest disk, in slot 0. -/
def emptyRoot (P : Type) : FsState P (FileState P) := boot Image.tiny ROOTINO (FileState.init 0)

theorem wf_emptyRoot (P : Type) : Wf Superblock.tiny (fun _ => none) (emptyRoot P) :=
  wf_boot Image.tiny _ (by decide) (by decide)

theorem lockedDir_emptyRoot : ∃ u : FsState P (FileState P),
    files.run p (ilock Superblock.tiny 0) ((emptyRoot P).setOp p true) = .ok () u ∧
    LockedDir Superblock.tiny p (fun _ => none) u 0 ∧ u.op p = true ∧ u.entries Superblock.tiny 0 = [] := by
  have halone : Alone Superblock.tiny p (fun _ => none) ((emptyRoot P).setOp p true) :=
    ((wf_emptyRoot P).alone (p := p)).congr rfl rfl rfl
  have hpos : 0 < ((emptyRoot P).setOp p true).ref 0 := Int.one_pos
  obtain ⟨u, hrun, hin⟩ := run_ilock fileExec halone (Kept.refl halone) rfl hpos
  have hdisk : u.disk = (emptyRoot P).disk := by rw [hin.frame]; rfl
  have hinum : u.inum 0 = ROOTINO := hin.inum
  have hmem : u.mem 0 = Dinode.fresh T_DIR := by
    rw [hin.tidy.clean, hdisk, hinum]
    exact Image.tiny.dinode_disk (show 1 < 4 by decide)
  have hdir : LockedDir Superblock.tiny p (fun _ => none) u 0 := by
    refine ⟨hin.alone, hin.lock, hin.tidy.clean, hin.tidy.intact.mapped, hin.tidy.intact.full, by rw [hmem]; rfl, ?_⟩
    rw [hmem]
    exact dvd_zero _
  refine ⟨u, hrun, hdir, ?_, ?_⟩
  · rw [hin.frame]
    exact Function.update_self ..
  · rw [hdir.entries_eq, hmem]
    rfl

/-- A name is linked, linked once more in vain, and unlinked; another one gets its place. -/
theorem directory_is_map_link : ∃ (u t : FsState Unit (FileState Unit)) (rs : List DirRet),
    files.run () (dirCalls Superblock.tiny 0 [.link [97] 2, .link [97] 1, .unlink [97], .link [98] 2]) u = .ok rs t ∧
    (rs, t.entries Superblock.tiny 0) =
      ([.code 0, .code (-1), .entry (some (2, 0)), .code 0], [some ([98], 2)]) := by
  obtain ⟨u, hlock, hdir, hop, hentries⟩ := lockedDir_emptyRoot (P := Unit) (p := ())
  have hpass : (files.run () (ilock Superblock.tiny 0 >>= fun _ => dirCalls Superblock.tiny 0
      [.link [97] 2, .link [97] 1, .unlink [97], .link [98] 2]) ((emptyRoot Unit).setOp () true)).passes
      (fun _ _ => true) = true := by decide +kernel
  obtain ⟨rs, t, hok, -⟩ := Outcome.exists_of_passes hpass
  rw [run_bind_ok hlock] at hok
  refine ⟨u, t, rs, hok, ?_⟩
  have hmap := (directory_is_map hdir hop (by rw [hentries]; exact nofun) _ (by simp [DirCall.Ok]) hok).1
  rw [hentries] at hmap
  exact hmap

end FsState

end Xv6
