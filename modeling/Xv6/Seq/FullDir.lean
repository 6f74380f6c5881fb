import Xv6.Seq.Open

/-! The calls that make a name, for a process that runs alone: they return unless the directory cannot take another
entry. There `dirlink` panics. -/

namespace Xv6

open Lib Machine Dinode Finset

/-- The system calls that make a name. -/
def Syscall.MakesName : Syscall → Prop
  | .link _ _ | .mkdir _ | .mknod _ _ _ => True
  | .open _ omode => ¬ omode &&& O_CREATE = 0
  | _ => False

namespace FsState

open Fs

variable {P : Type} [DecidableEq P] {p : P} {sb : Superblock} {own : Nat → Option Nat} {s : FsState P (FileState P)}

/-- The call has to add an entry to a directory of the largest size, whose entries are all in use. -/
def Overfills (sb : Superblock) (p : P) (s : FsState P (FileState P)) : Syscall → Prop
  | .link (some old) (some new) => LinkFull sb s (s.ext.cwd p) old new
  | .mkdir (some path) | .mknod (some path) _ _ | .open (some path) _ => Overfull sb s (s.ext.cwd p) path
  | _ => False

/-- There are a free inode, free blocks and slots of the inode cache. -/
structure Supplied (sb : Superblock) (s : FsState P (FileState P)) : Prop where
  inode : ∃ i, 0 < i ∧ i < sb.ninodes ∧ (sb.dinode s.disk i).type = 0
  blocks : 3 ≤ sb.free s.disk
  slots : ¬Cramped s

omit [DecidableEq P] in
theorem Supplied.stuck (h : Supplied sb s) {full : Prop} {msg : String} (hmsg : Stuck sb s full msg) :
    msg = "dirlink" ∧ full := by
  obtain ⟨i, hpos, hlt, htype⟩ := h.inode
  have hblocks := h.blocks
  rcases hmsg with ⟨-, hcrowded⟩ | ⟨-, hnone⟩ | ⟨-, hfree⟩ | hfull
  · exact absurd hcrowded.cramped h.slots
  · exact absurd htype (hnone i hpos hlt)
  · omega
  · exact hfull

omit [DecidableEq P] in
theorem Supplied.stuckLink (h : Supplied sb s) {full : Prop} {msg : String} (hmsg : StuckLink sb s full msg) :
    msg = "dirlink" ∧ full := by
  have hblocks := h.blocks
  rcases hmsg with ⟨-, hcramped⟩ | ⟨-, hfree⟩ | hfull
  · exact absurd hcramped h.slots
  · omega
  · exact hfull

theorem holds_make (h : Ready sb own p s) (path : List UInt8) {ty : Short} (hty : ty ≠ 0) (major minor : Short) :
    (files.run p (sysMake sb (some path) ty major minor) s).Holds (Stuck sb s (Overfull sb s (s.ext.cwd p) path)) fun r _ =>
      ¬Overfull sb s (s.ext.cwd p) path ∧ (r = -1 ∨ 0 ≤ r) := by
  have hop : (s.setOp p true).op p = true := Function.update_self ..
  unfold sysMake
  rw [run_beginOp]
  simp only []
  rw [run_getCwd]
  refine holds_seq (holds_create h.begun.wf h.begun.tree h.begun.cwd hop path hty major minor) ?_
  intro r t hr
  cases r with
  | none =>
    refine ⟨?_, Or.inl rfl⟩
    rintro ⟨n, name, hnew, -⟩
    exact hr.1 n name hnew
  | some ip =>
    rcases hr with ⟨hold, -, m, hin, hlive⟩ | ⟨n, name, own', m, hnew, hroom, hmade⟩
    · obtain ⟨u, hrun, -⟩ := hin.run_iunlockput fileExec hlive
      simp only []
      rw [run_bind_ok hrun]
      refine ⟨?_, Or.inr (le_refl 0)⟩
      rintro ⟨n, name, hnew, -⟩
      exact hold n name hnew
    · obtain ⟨own'', u, hrun, -, -⟩ := run_iunlockput_any fileExec hmade.alone (by rw [hmade.op]; exact hop) hmade.lock
        hmade.tidy
      simp only []
      rw [run_bind_ok hrun]
      refine ⟨?_, Or.inr (le_refl 0)⟩
      rintro ⟨n', name', hnew', hfull⟩
      cases hnew'.1.symm.trans hnew.1
      exact hroom hfull

theorem returns_of_makesName (h : Ready sb own p s) (hfree : ∀ f, s.ext.ref f = 0 → (s.ext.file f).type = .none)
    (hsup : Supplied sb s) {c : Syscall} (hc : c.MakesName) :
    (files.run p (c.run sb) s).Holds (fun msg => msg = "dirlink" ∧ Overfills sb p s c) fun r _ =>
      ¬Overfills sb p s c ∧ (r = -1 ∨ 0 ≤ r) := by
  cases c with
  | dup | read | write | close | fstat | unlink | chdir => exact hc.elim
  | link old new =>
    cases old with
    | none => exact ⟨not_false, Or.inl rfl⟩
    | some old =>
      cases new with
      | none => exact ⟨not_false, Or.inl rfl⟩
      | some new =>
        have hop : (s.setOp p true).op p = true := Function.update_self ..
        have hlink : (files.run p (sysLink sb (s.ext.cwd p) old new) s).Holds
            (StuckLink sb (s.setOp p true) (LinkFull sb (s.setOp p true) (s.ext.cwd p) old new))
            (Links sb p own (s.setOp p true) (LinkFull sb (s.setOp p true) (s.ext.cwd p) old new)) := by
          unfold sysLink
          rw [run_beginOp]
          exact holds_link h.begun.wf h.begun.tree h.begun.cwd hop old new
        refine (hlink.mono ?_).mono_may fun msg => hsup.stuckLink
        rintro r t ⟨hfull, ⟨rfl, -⟩ | rfl⟩
        · exact ⟨hfull, Or.inl rfl⟩
        · exact ⟨hfull, Or.inr (le_refl 0)⟩
  | mkdir path =>
    cases path with
    | none => exact ⟨not_false, Or.inl rfl⟩
    | some path => exact (holds_make h path (by decide) 0 0).mono_may fun msg => hsup.stuck
  | mknod path major minor =>
    cases path with
    | none => exact ⟨not_false, Or.inl rfl⟩
    | some path => exact (holds_make h path (by decide) major minor).mono_may fun msg => hsup.stuck
  | «open» path omode =>
    cases path with
    | none => exact ⟨not_false, Or.inl rfl⟩
    | some path =>
      refine ((holds_open h hfree path omode).mono ?_).mono_may fun msg hmsg => ?_
      · rintro r t ⟨hfull, hopens⟩
        exact ⟨fun hover => hfull ⟨hc, hover⟩, hopens.result.imp_right And.left⟩
      · obtain ⟨hmsg', -, hover⟩ := hsup.stuck hmsg
        exact ⟨hmsg', hover⟩

/-- A call that makes a name returns, unless it has to add an entry to a full directory; then it panics. -/
theorem makes_name_returns_iff (h : Ready sb own p s) (hfree : ∀ f, s.ext.ref f = 0 → (s.ext.file f).type = .none)
    (hsup : Supplied sb s) {c : Syscall} (hc : c.MakesName) :
    ((∃ r t, files.run p (c.run sb) s = .ok r t ∧ (r = -1 ∨ 0 ≤ r)) ↔ ¬Overfills sb p s c) ∧
      (Overfills sb p s c → files.run p (c.run sb) s = .panic "dirlink") := by
  rcases (returns_of_makesName h hfree hsup hc).cases with ⟨r, t, hrun, hnot, hr⟩ | ⟨msg, hrun, rfl, hfull⟩
  · exact ⟨⟨fun _ => hnot, fun _ => ⟨r, t, hrun, hr⟩⟩, fun hfull => absurd hfull hnot⟩
  · refine ⟨⟨?_, fun hnot => absurd hfull hnot⟩, fun _ => hrun⟩
    rintro ⟨r, t, hrun', -⟩
    cases hrun.symm.trans hrun'

end FsState

/-! ### A full directory -/

namespace FullDir

/-- A name for each entry. -/
def fullName (k : Nat) : List UInt8 :=
  [UInt8.ofNat (128 + k % 64), UInt8.ofNat (128 + k / 64 % 64), UInt8.ofNat (128 + k / 4096 % 64)]

theorem cstr_fullName (k : Nat) : cstr DIRSIZ (fullName k) = fullName k := by
  have hne : ∀ x, UInt8.ofNat (128 + x % 64) ≠ 0 := by
    intro x
    rw [ne_eq, ← UInt8.toNat_inj, UInt8.toNat_ofNat']
    show ¬_ = 0
    omega
  simp [fullName, cstr, DIRSIZ, hne, -UInt8.ofNat_add]

theorem fullName_inj {j k : Nat} (hj : j < 17152) (hk : k < 17152) (h : fullName j = fullName k) : j = k := by
  simp only [fullName, List.cons.injEq, ← UInt8.toNat_inj, UInt8.toNat_ofNat'] at h
  omega

/-- The first name is that of a file, the others are those of the directory. -/
def fullInum (k : Nat) : Nat := if k = 0 then 2 else ROOTINO

theorem fullInum_bounds (k : Nat) : 0 < fullInum k ∧ fullInum k < 4 := by
  unfold fullInum
  split <;> decide

/-- Entry `k` of the directory. -/
def fullEntry (k : Nat) : List UInt8 := dirent (fullInum k) (fullName k)

/-- Block `bn` of the directory. -/
def fullBlock (bn : Nat) : Block := Bytes.ofFn fun j => (fullEntry (64 * bn + j / 16)).getD (j % 16) 0

/-- The blocks from 16 on. -/
def fullIndirect : Block := Bytes.ofFn fun j => UInt8.ofNat ((16 + j / 4) / 256 ^ (j % 4))

theorem entry_fullIndirect {k : Nat} (hk : k < 256) : (fullIndirect.entry k).val = 16 + k := by
  have hval : fullIndirect.getLE (4 * k) 4 = (16 + k) % 256 ^ 4 := by
    refine Bytes.getLE_of_digits _ fun j hj => ?_
    have hlt : 4 * k + j < BSIZE := by
      show 4 * k + j < 1024
      omega
    have hdiv : (4 * k + j) / 4 = k := by omega
    have hmod : (4 * k + j) % 4 = j := by omega
    rw [fullIndirect, Bytes.get_ofFn _ hlt, hdiv, hmod]
    exact UInt8.toNat_ofNat'
  show fullIndirect.getLE (4 * k) 4 = 16 + k
  rw [hval, Nat.mod_eq_of_lt (by omega)]

theorem isDir_fullBlock (bn : Nat) : (fullBlock bn).IsDir Superblock.tiny := by
  intro k hk
  have hk' : k < 64 := hk
  have hval : (fullBlock bn).getLE (16 * k) 2 = fullInum (64 * bn + k) % 256 ^ 2 := by
    refine Bytes.getLE_of_digits _ fun j hj => ?_
    have hlt : 16 * k + j < BSIZE := by
      show 16 * k + j < 1024
      omega
    have hdiv : (16 * k + j) / 16 = k := by omega
    have hmod : (16 * k + j) % 16 = j := by omega
    rw [fullBlock, Bytes.get_ofFn _ hlt, hdiv, hmod, fullEntry, fullInum]
    rcases Nat.le_one_iff_eq_zero_or_eq_one.1 (Nat.le_of_lt_succ hj) with rfl | rfl <;> split <;> rfl
  rw [DIRENT, hval]
  exact Nat.lt_of_le_of_lt (Nat.mod_le _ _) (fullInum_bounds _).2

/-- The root directory with all the blocks that it can have. -/
def fullRoot : Dinode := ⟨T_DIR, 0, 0, 1, Uint.of (MAXFILE * BSIZE), fun i => Uint.of (3 + i)⟩

def own (b : Nat) : Option Nat := if 3 ≤ b ∧ b < 272 then some ROOTINO else none

def block (b : Nat) : Block := if b < 15 then fullBlock (b - 3) else if b = 15 then fullIndirect else fullBlock (b - 4)

theorem content_full (b : Nat) : content block own ROOTINO b = if 3 ≤ b ∧ b < 272 then some (block b) else none := by
  unfold content own
  split <;> rfl

theorem slot_fullRoot {j : Nat} (hj : j < 269) : fullRoot.slot (content block own ROOTINO) j = 3 + j := by
  have haddr : ∀ {i}, i ≤ NDIRECT → fullRoot.addr i = 3 + i := by
    intro i hi
    have hi' : i < NDIRECT + 1 := Nat.lt_succ_of_le hi
    have hi'' : i ≤ 12 := hi
    rw [Dinode.addr, dif_pos hi']
    show (Uint.of (3 + i)).val = 3 + i
    exact Uint.val_of (by omega)
  by_cases hle : j ≤ NDIRECT
  · rw [slot_of_le hle, haddr hle]
  · have hle' : ¬j ≤ 12 := hle
    have hind : content block own ROOTINO (fullRoot.addr NDIRECT) = some fullIndirect := by
      rw [haddr (le_refl _), content_full]
      rfl
    rw [slot_of_gt (Nat.lt_of_not_le hle) hind]
    show (fullIndirect.entry (j - 13)).val = 3 + j
    rw [entry_fullIndirect (by omega)]
    omega

theorem data_fullRoot {bn : Nat} (hbn : bn < 268) : fullRoot.data (content block own ROOTINO) bn = some (fullBlock bn) := by
  have hlt : fileSlot bn < 269 := fileSlot_lt hbn
  rw [Dinode.data, slot_fullRoot hlt, content_full, if_pos (by omega)]
  unfold block fileSlot
  have hdirect : NDIRECT = 12 := rfl
  rw [hdirect]
  split_ifs <;> first | omega | (congr 2; omega)

theorem intact_fullRoot : fullRoot.Intact Superblock.tiny (content block own ROOTINO) := by
  refine ⟨⟨fun i j hi hj _ heq => ?_, fun b => ?_⟩, fun bn hbn => ?_, fun _ bn d hbn hd => ?_⟩
  · rw [slot_fullRoot hi, slot_fullRoot hj] at heq
    omega
  · rw [content_full]
    constructor
    · intro hsome
      split at hsome
      · rename_i hb
        refine ⟨by omega, b - 3, ?_, ?_⟩
        · show b - 3 < 269
          omega
        · rw [slot_fullRoot (by omega)]
          omega
      · cases hsome
    · rintro ⟨-, j, hj, rfl⟩
      have hj' : j < 269 := hj
      rw [slot_fullRoot hj', if_pos (by omega)]
      rfl
  · have hlt : bn * 1024 < 274432 := hbn
    have hbn' : bn < 268 := by omega
    refine ⟨hbn', ?_⟩
    rw [slot_fullRoot (fileSlot_lt hbn')]
    omega
  · rw [data_fullRoot hbn] at hd
    cases hd
    exact isDir_fullBlock bn

/-- The root directory is full; there are an inode and 28 blocks left. -/
def image : Image Superblock.tiny where
  inode n := if n = ROOTINO then fullRoot else if n = 2 then Dinode.fresh T_FILE else Dinode.zero
  own := own
  block := block
  ok := Image.tiny.ok
  data b h := by
    unfold own at h
    split at h
    · rename_i hb
      exact ⟨hb.1, Nat.lt_trans hb.2 (by decide)⟩
    · cases h
  alive b n h := by
    unfold own at h
    split at h
    · cases h
      exact ⟨by decide, by decide⟩
    · cases h
  intact n _ h := by
    split at h
    · rename_i hn
      rw [if_pos hn, hn]
      exact intact_fullRoot
    · rename_i hn
      rw [if_neg hn]
      split at h
      · rename_i hn'
        have hnone : content block own 2 = fun _ => none := by
          funext b
          unfold content own
          split <;> rfl
        rw [if_pos hn', hn', hnone]
        exact intact_empty rfl rfl
      · exact absurd rfl h

theorem dirent_fullRoot {k : Nat} (hk : k < 17152) : fullRoot.dirent (content block own ROOTINO) k = fullEntry k := by
  refine List.ext_getElem ?_ fun i h₁ h₂ => ?_
  · rw [fullEntry, length_dirent]
    exact length_fileBytes
  · have hi : i < 16 := by
      rw [fullEntry, length_dirent] at h₂
      exact h₂
    have hbn : (16 * k + i) / 1024 < 268 := by omega
    have hbyte : fullRoot.fileByte (content block own ROOTINO) (16 * k + i) =
        (fullBlock ((16 * k + i) / 1024)).get ((16 * k + i) % 1024) := fileByte_of_data (data_fullRoot hbn)
    have hlt : (16 * k + i) % 1024 < BSIZE := Nat.mod_lt _ (by decide)
    have hentry : 64 * ((16 * k + i) / 1024) + (16 * k + i) % 1024 / 16 = k := by omega
    have hmod : (16 * k + i) % 1024 % 16 = i := by omega
    rw [← List.getD_eq_getElem _ 0 h₁, ← List.getD_eq_getElem _ 0 h₂]
    refine (getD_fileBytes hi).trans (hbyte.trans ?_)
    rw [fullBlock, Bytes.get_ofFn _ hlt, hentry, hmod]

/-- The root directory is full, and in use. -/
def state (P : Type) : FsState P (FileState P) := FsState.boot image ROOTINO (FileState.init 0)

variable (P : Type)

theorem dinode_state {n : Nat} (hn : n < 4) : Superblock.tiny.dinode (state P).disk n =
    if n = ROOTINO then fullRoot else if n = 2 then Dinode.fresh T_FILE else Dinode.zero := image.dinode_disk hn

theorem entries_state (k : Nat) : (Superblock.tiny.entries (state P).disk ROOTINO)[k]? =
    if k < 17152 then some (some (fullName k, fullInum k)) else none := by
  have hdisk : (state P).disk = image.disk := rfl
  have hcontent : content image.disk own ROOTINO = content block own ROOTINO := image.content_disk ROOTINO
  have hdinode : Superblock.tiny.dinode image.disk ROOTINO = fullRoot := dinode_state P (by decide)
  have hmapped : fullRoot.Mapped (content image.disk own ROOTINO) := by
    rw [hcontent]
    exact intact_fullRoot.mapped
  rw [hdisk, Superblock.entries, hdinode, entries_view hmapped intact_fullRoot.size_le, hcontent, Dinode.getElem?_entries]
  have hlen : fullRoot.size.val / DIRENT = 17152 := rfl
  rw [hlen]
  split
  · rename_i hk
    have hlt : fullInum k < 2 ^ 16 := Nat.lt_trans (fullInum_bounds k).2 (by decide)
    rw [dirent_fullRoot hk, fullEntry, binding_dirent (fullInum_bounds k).1 hlt, cstr_fullName]
  · rfl

theorem distinct_state : Slots.Distinct (Superblock.tiny.entries (state P).disk ROOTINO) := by
  intro i j b c hi hj heq
  rw [entries_state] at hi hj
  split at hi
  · split at hj
    · cases hi
      cases hj
      exact fullName_inj (by assumption) (by assumption) heq
    · cases hj
  · cases hi

theorem full_state : FsState.Full Superblock.tiny (state P).disk ROOTINO := by
  have hfree := Slots.getElem?_free (Superblock.tiny.entries (state P).disk ROOTINO)
  rw [entries_state] at hfree
  unfold FsState.Full
  split at hfree
  · rcases hfree with hfree | hfree <;> cases hfree
  · rename_i hge
    show 274432 < 16 * _ + 16
    omega

theorem find_state {name : List UInt8} (hname : ∀ k, cstr DIRSIZ name ≠ fullName k) :
    Slots.find (cstr DIRSIZ name) (Superblock.tiny.entries (state P).disk ROOTINO) = none := by
  refine Slots.find_eq_none_iff.2 fun k n hk => ?_
  rw [entries_state] at hk
  split at hk
  · rw [Option.some.injEq, Option.some.injEq, Prod.mk.injEq] at hk
    exact hname k hk.1.symm
  · cases hk

theorem ready_state (p : P) : FsState.Ready Superblock.tiny own p (state P) := by
  have hlive : ∀ n, n = ROOTINO ∨ n = 2 → FsState.Live Superblock.tiny (state P) n := by
    rintro n (rfl | rfl) <;> refine ⟨by decide, ?_, Or.inl ?_⟩ <;> rw [dinode_state P (by decide)] <;> decide
  have hone : ∀ {n}, n < 4 → (Superblock.tiny.dinode (state P).disk n).type = T_DIR → n = ROOTINO := by
    intro n hn htype
    rw [dinode_state P hn] at htype
    split_ifs at htype
    · assumption
    · exact absurd htype (by decide)
    · exact absurd htype (by decide)
  refine ⟨FsState.wf_boot image _ (by decide) (by decide), ⟨hlive _ (Or.inl rfl), fun n hn htype => ?_, fun n hn htype k b hb => ?_⟩, Int.one_pos⟩
  · rw [hone hn htype, dinode_state P (by decide)]
    exact ⟨17152, rfl⟩
  · rw [hone hn htype, entries_state] at hb
    split at hb
    · cases hb
      unfold fullInum
      split
      · exact hlive _ (Or.inr rfl)
      · exact hlive _ (Or.inl rfl)
    · cases hb

theorem supplied_state : FsState.Supplied Superblock.tiny (state P) := by
  refine ⟨⟨3, by decide, by decide, ?_⟩, ?_, ?_⟩
  · rw [dinode_state P (by decide)]
    rfl
  · refine image.card_le_free (S := {272, 273, 274}) fun x hx => ?_
    have hx' : 272 ≤ x ∧ x < 275 := by
      simp only [mem_insert, mem_singleton] at hx
      omega
    exact ⟨Nat.lt_of_lt_of_le hx'.2 (by decide), Nat.le_trans (by decide) hx'.1, if_neg (by omega)⟩
  · rintro ⟨ip, h⟩
    by_cases h₁ : ip = 1
    · exact absurd (h 2 3 (by rw [h₁]; decide) (by rw [h₁]; decide) rfl rfl) (by decide)
    · by_cases h₂ : ip = 2
      · exact absurd (h 1 3 (by rw [h₂]; decide) (by rw [h₂]; decide) rfl rfl) (by decide)
      · exact absurd (h 1 2 (Ne.symm h₁) (Ne.symm h₂) rfl rfl) (by decide)

theorem overfull_state : FsState.Overfull Superblock.tiny (state Unit) 0 [slash, 97] := by
  refine ⟨ROOTINO, [97], ⟨by decide +kernel, ?_⟩, full_state Unit⟩
  rw [Superblock.lookup, find_state Unit fun k hk => ?_]
  · rfl
  · have hlen : 1 = 3 := congrArg List.length hk
    omega

end FullDir

namespace FsState

/-- The path of the file. -/
theorem path_resolution_file : ∃ t, files.run () (Fs.namei Superblock.tiny 0 (slash :: FullDir.fullName 0))
    (FullDir.state Unit) = .ok (some 1) t ∧ t.inum 1 = 2 ∧
    Superblock.tiny.walk (FullDir.state Unit).disk ROOTINO [FullDir.fullName 0] = some 2 := by
  have hpass : (files.run () (Fs.namei Superblock.tiny 0 (slash :: FullDir.fullName 0)) (FullDir.state Unit)).passes
      (fun r t => r == some 1 && t.inum 1 == 2) = true := by decide +kernel
  obtain ⟨r, t, hok, hr⟩ := Outcome.exists_of_passes hpass
  obtain ⟨rfl, hinum⟩ : r = some 1 ∧ t.inum 1 = 2 := by simpa using hr
  have h := FullDir.ready_state Unit ()
  obtain ⟨-, hnamei, -⟩ := path_resolution () fileExec h.wf h.tree h.cwd (slash :: FullDir.fullName 0)
  have hwalk := (hnamei.of_ok hok).1
  rw [hinum] at hwalk
  exact ⟨t, hok, hinum, hwalk⟩

/-- `link` of the file to a name that is there: the link that it counts at first is taken back. -/
theorem failing_call_unchanged_link : ∃ t, files.run () ((Syscall.link (some (slash :: FullDir.fullName 0))
    (some (slash :: FullDir.fullName 1))).run Superblock.tiny) (FullDir.state Unit) = .ok (-1) t ∧
    Unchanged (FullDir.state Unit) t := by
  have hpass : (files.run () ((Syscall.link (some (slash :: FullDir.fullName 0))
      (some (slash :: FullDir.fullName 1))).run Superblock.tiny) (FullDir.state Unit)).passes
      (fun r _ => r == -1) = true := by decide +kernel
  obtain ⟨r, t, hok, hr⟩ := Outcome.exists_of_passes hpass
  obtain rfl : r = -1 := by simpa using hr
  exact ⟨t, hok, failing_call_unchanged (FullDir.ready_state Unit ())
    (c := .link (some (slash :: FullDir.fullName 0)) (some (slash :: FullDir.fullName 1))) trivial hok⟩

/-- `mknod("/a", 1, 1)` with a full root directory. -/
theorem makes_name_returns_iff_full :
    files.run () ((Syscall.mknod (some [slash, 97]) 1 1).run Superblock.tiny) (FullDir.state Unit) = .panic "dirlink" :=
  (makes_name_returns_iff (FullDir.ready_state Unit ()) (fun _ _ => rfl) (FullDir.supplied_state Unit)
    (c := .mknod (some [slash, 97]) 1 1) trivial).2 FullDir.overfull_state

/-- `mkdir("/a")` does not return, although there are an inode and blocks for it: the root directory has an entry in
every place that it can have. -/
theorem full_directory_panics : Ready Superblock.tiny FullDir.own () (FullDir.state Unit) ∧
    Supplied Superblock.tiny (FullDir.state Unit) ∧
    Slots.Distinct (Superblock.tiny.entries (FullDir.state Unit).disk ROOTINO) ∧
    ¬∃ r t, files.run () ((Syscall.mkdir (some [slash, 97])).run Superblock.tiny) (FullDir.state Unit) = .ok r t := by
  refine ⟨FullDir.ready_state Unit (), FullDir.supplied_state Unit, FullDir.distinct_state Unit, ?_⟩
  rintro ⟨r, t, hrun⟩
  obtain ⟨hnot, -⟩ := (returns_of_makesName (FullDir.ready_state Unit ()) (fun _ _ => rfl) (FullDir.supplied_state Unit)
    (c := .mkdir (some [slash, 97])) trivial).of_ok hrun
  exact hnot FullDir.overfull_state

end FsState

end Xv6
