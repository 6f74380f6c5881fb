import Xv6.Seq.Image

/-! `filewrite` on an inode, for a process that runs alone. It writes in chunks, each in an operation of its own and
with the inode locked; the offset is read and advanced inside. -/

namespace Xv6

open Lib Machine Dinode Finset

namespace FsState

open Fs

variable {P : Type} [DecidableEq P] {p : P} {sb : Superblock} {own : Nat → Option Nat} {s : FsState P (FileState P)}
  {ip : Fin NINODE} {f : Fin NFILE} {src : Src} {n1 : Nat} {may : String → Prop}

def dinode (s : FsState P (FileState P)) (sb : Superblock) (ip : Fin NINODE) : Dinode := sb.dinode s.disk (s.inum ip)

def bytes (s : FsState P (FileState P)) (sb : Superblock) (ip : Fin NINODE) : List UInt8 := sb.bytes s.disk (s.inum ip)

def off (s : FsState P (FileState P)) (f : Fin NFILE) : Nat := (s.ext.file f).off.val

/-- There are free blocks for all that the file has not. -/
def Room (sb : Superblock) (s : FsState P (FileState P)) (ip : Fin NINODE) : Prop :=
  (s.dinode sb ip).missing (view s.disk) (Finset.range NSLOT) ≤ sb.free s.disk

/-! ### One chunk -/

/-- What did not change: the references to inodes, and which inodes they are for. -/
structure SameRefs (s t : FsState P (FileState P)) : Prop where
  ref : ∀ j, t.ref j = s.ref j
  inum : ∀ j, 0 < s.ref j → t.inum j = s.inum j

namespace SameRefs

variable {t u : FsState P (FileState P)}

omit [DecidableEq P]

theorem trans (h : SameRefs s t) (h' : SameRefs t u) : SameRefs s u where
  ref j := (h'.ref j).trans (h.ref j)
  inum j hj := (h'.inum j (by rw [h.ref]; exact hj)).trans (h.inum j hj)

theorem of_kept (h : Kept s (fun _ => 0) t) : SameRefs s t where
  ref j := by
    have href := h.ref j
    rw [Nat.cast_zero, Int.add_zero] at href
    exact href
  inum := h.inum

end SameRefs

/-- An operation has begun, and the inode is locked. -/
structure Opened (sb : Superblock) (p : P) (own : Nat → Option Nat) (ip : Fin NINODE) (s u : FsState P (FileState P)) :
    Prop where
  alone : Alone sb p own u
  lock : (u.icache.slot ip).lock = some p
  tidy : Tidy sb own u ip
  op : u.op p = true
  disk : u.disk = s.disk
  ext : u.ext = s.ext
  refs : SameRefs s u
  inum : u.inum ip = s.inum ip
  rest : ∀ j, j ≠ ip → (u.icache.slot j).lock = none

theorem run_open (h : Wf sb own s) (hpos : 0 < s.ref ip) : ∃ u, Opened sb p own ip s u ∧
    ∀ (α : Type) (k : Unit → FsM Nat FileSig α),
      files.run p (Client.beginOp >>= fun _ => ilock sb ip >>= k) s = files.run p (k ()) u := by
  have halone : Alone sb p own (s.setOp p true) := (h.alone (p := p)).congr rfl rfl rfl
  obtain ⟨u, hrun, hin⟩ := run_ilock fileExec halone (Kept.refl halone) (h.unlocked ip) hpos
  have hrefs := SameRefs.of_kept hin.kept
  refine ⟨u, ⟨hin.alone, hin.lock, hin.tidy, ?_, by rw [hin.frame]; rfl, by rw [hin.frame]; rfl,
    ⟨hrefs.ref, hrefs.inum⟩, hin.inum, fun j hj => ?_⟩, fun α k => ?_⟩
  · rw [hin.frame]
    exact Function.update_self ..
  · rw [hin.rest j hj]
    exact h.unlocked j
  · rw [run_beginOp, run_bind_ok hrun]

theorem run_close {α : Type} {r : α} (h : Alone sb p own s) (hlock : (s.icache.slot ip).lock = some p)
    (htidy : Tidy sb own s ip) (hrest : ∀ j, j ≠ ip → (s.icache.slot j).lock = none) :
    ∃ t, files.run p (iunlock ip >>= fun _ => Client.endOp >>= fun _ => pure r : FsM Nat FileSig α) s = .ok r t ∧
      Wf sb own t ∧ t.disk = s.disk ∧ t.ext = s.ext ∧ SameRefs s t := by
  have hout := h.iunlock (Kept.refl h) hlock htidy
  have hrefs := SameRefs.of_kept hout.kept
  refine ⟨(s.setCache (s.icache.releasesleep ip)).setOp p false, ?_, ?_, rfl, rfl, ⟨hrefs.ref, hrefs.inum⟩⟩
  · rw [run_iunlock hlock (h.locked ip hlock).1, run_endOp]
    rfl
  · refine Alone.wf (p := p) (hout.alone.congr rfl rfl rfl) fun j => ?_
    show ((s.setCache (s.icache.releasesleep ip)).icache.slot j).lock = none
    by_cases hj : j = ip
    · rw [hj]
      exact hout.lock
    · rw [hout.rest j hj]
      exact hrest j hj

namespace Opened

variable {u : FsState P (FileState P)} (h : Opened sb p own ip s u)
include h

omit [DecidableEq P]

theorem mem : u.mem ip = s.dinode sb ip := by
  rw [h.tidy.clean, h.inum, h.disk]
  rfl

theorem slot (j : Nat) : (u.mem ip).slot (u.blocks own ip) j = (s.dinode sb ip).slot (view s.disk) j := by
  rw [← h.disk, ← h.mem]
  exact (slot_view h.tidy.intact.mapped j).symm

theorem room : (u.mem ip).missing (u.blocks own ip) (Finset.range NSLOT) ≤ sb.free u.disk ↔ Room sb s ip := by
  have hmissing : (u.mem ip).missing (u.blocks own ip) (Finset.range NSLOT) =
      (s.dinode sb ip).missing (view s.disk) (Finset.range NSLOT) := missing_congr fun j _ => h.slot j
  rw [hmissing, h.disk]
  rfl

end Opened

variable (p f src) in
/-- `writei` refuses the chunk. -/
theorem run_chunk_refused (h : Wf sb own s) (hpos : 0 < s.ref ip)
    (hno : s.off f > (s.dinode sb ip).size.val ∨ s.off f + n1 > MAXFILE * BSIZE) :
    ∃ t, files.run p (chunk sb f ip src n1) s = .ok (-1 : Int) t ∧ Wf sb own t ∧
      t.disk = s.disk ∧ t.ext = s.ext ∧ SameRefs s t := by
  obtain ⟨u, hin, hrun⟩ := run_open (p := p) h hpos
  obtain ⟨t, hclose, hwf, hdisk, hext, hrefs⟩ := run_close (r := (-1 : Int)) hin.alone hin.lock hin.tidy hin.rest
  have hwrite : files.run p (writei sb ip src (s.ext.file f).off.val n1) u = .ok (-1 : Int) u := by
    refine run_writei_refused ?_
    rw [hin.mem]
    rcases hno with hgt | hgt
    · exact Or.inl (Or.inl hgt)
    · exact Or.inr hgt
  refine ⟨t, ?_, hwf, by rw [hdisk, hin.disk], by rw [hext, hin.ext], hin.refs.trans hrefs⟩
  unfold chunk advance
  simp only [bind_assoc, pure_bind]
  rw [hrun, run_fload, hin.ext, run_bind_ok hwrite, if_neg (by decide), pure_bind]
  exact hclose

/-- What a chunk that `writei` accepts has done. -/
structure Chunked (sb : Superblock) (own : Nat → Option Nat) (f : Fin NFILE) (ip : Fin NINODE) (src : Src) (n1 : Nat)
    (s t : FsState P (FileState P)) : Prop where
  wf : Wf sb own t
  refs : SameRefs s t
  ext : t.ext = s.ext.setFile f { s.ext.file f with off := (s.ext.file f).off + Uint.of n1 }
  type : (t.dinode sb ip).type = (s.dinode sb ip).type
  size : (s.dinode sb ip).size.val ≤ (t.dinode sb ip).size.val
  room : Room sb s ip → Room sb t ip
  bytes : (∀ j, j < n1 → (src.byte j).isSome) → ∃ b, b.length = n1 ∧ src.Has b ∧
    t.bytes sb ip = splice (s.bytes sb ip) (s.off f) b

omit [DecidableEq P] in
theorem covers_range {off n : Nat} (h : off + n ≤ MAXFILE * BSIZE) : Dinode.Covers (Finset.range NSLOT) off n where
  lt j hj := mem_range.1 hj
  slot i _ hi := by
    have hbn : i / BSIZE < MAXFILE := Nat.div_lt_of_lt_mul (by rw [Nat.mul_comm]; omega)
    exact ⟨mem_range.2 (fileSlot_lt hbn), fun _ => mem_range.2 (by decide)⟩

omit [DecidableEq P] in
/-- The content of the file, from its blocks. -/
theorem Opened.fileByte {u : FsState P (FileState P)} (h : Opened sb p own ip s u) {i : Nat} (hi : i < MAXFILE * BSIZE) :
    (s.dinode sb ip).fileByte (view s.disk) i = (u.mem ip).fileByte (u.blocks own ip) i := by
  rw [← h.disk, ← h.mem]
  exact fileByte_view h.tidy.intact.mapped hi

theorem holds_chunk (h : Wf sb own s) (hpos : 0 < s.ref ip) (htype : (s.dinode sb ip).type ≠ T_DIR) (hsrc : src.Ok)
    (hn : 0 < n1) (hoff : s.off f ≤ (s.dinode sb ip).size.val) (hmax : s.off f + n1 ≤ MAXFILE * BSIZE)
    (hmay : ¬Room sb s ip → may "balloc: out of blocks") :
    (files.run p (chunk sb f ip src n1) s).Holds may fun r t => r = (n1 : Int) ∧
      ∃ own', Chunked sb own' f ip src n1 s t := by
  obtain ⟨u, hin, hrun⟩ := run_open (p := p) h hpos
  have hmem := hin.mem
  unfold chunk advance
  simp only [bind_assoc, pure_bind]
  rw [hrun, run_fload, hin.ext]
  refine holds_seq (holds_writei (S := Finset.range NSLOT) hsrc hin.alone hin.lock hin.op
    (by rw [hmem]; exact (h.used ip hpos).2.2) hin.tidy.intact.mapped hin.tidy.intact.full (by rw [hmem]; exact hoff) hmax
    hn (covers_range hmax) fun hfull => hmay fun hroom => Nat.not_lt.2 (hin.room.2 hroom) hfull) ?_
  rintro r t ⟨rfl, own', stop, bytes, hw⟩
  have hpos' : (n1 : Int) > 0 := by omega
  rw [if_pos hpos', run_fstore, Int.toNat_natCast, hw.works.ext, hin.ext]
  generalize hg : s.ext.setFile f { s.ext.file f with off := (s.ext.file f).off + Uint.of n1 } = g
  have htype' : (t.mem ip).type = (u.mem ip).type := by rw [← hw.fields]
  have hinum : t.inum ip = s.inum ip := by rw [hw.works.inum, hin.inum]
  have htidy : Tidy sb own' (t.setExt g) ip := by
    refine ⟨?_, hw.mapped, hw.full, fun hdir => ?_⟩
    · show t.mem ip = sb.dinode t.disk (t.inum ip)
      rw [hw.clean, hw.works.inum]
    · have hdir' : (t.mem ip).type = T_DIR := hdir
      rw [htype', hmem] at hdir'
      exact absurd hdir' htype
  have halone : Alone sb p own' (t.setExt g) := hw.alone.congr rfl rfl rfl
  obtain ⟨w, hclose, hwf, hdisk, hext, hrefs⟩ := run_close (r := (n1 : Int)) halone
    (by show (t.icache.slot ip).lock = some p; rw [hw.works.lock, hin.lock]) htidy
    fun j hj => by show (t.icache.slot j).lock = none; rw [hw.works.lock, hin.rest j hj]
  rw [hclose, Outcome.holds_ok]
  have hrefs' : SameRefs s w := by
    refine hin.refs.trans (SameRefs.trans (t := t) ⟨hw.works.ref, fun j _ => hw.works.inum j⟩ ?_)
    exact ⟨hrefs.ref, hrefs.inum⟩
  have hdinode : w.dinode sb ip = t.mem ip := by
    rw [hw.clean, hin.inum, FsState.dinode, hrefs'.inum ip hpos, hdisk]
    rfl
  have hdisk' : w.disk = t.disk := hdisk
  refine ⟨rfl, own', hwf, hrefs', hext.trans hg.symm, ?_, ?_, fun hroom => ?_, fun hall => ?_⟩
  · rw [hdinode, htype', hmem]
  · rw [hdinode, hw.size, hmem]
    exact Nat.le_max_left ..
  · have hmissing : (t.mem ip).missing (view t.disk) (Finset.range NSLOT) =
        (t.mem ip).missing (t.blocks own' ip) (Finset.range NSLOT) :=
      missing_congr fun j _ => slot_view hw.mapped j
    have hle := hw.room
    have hroom' := hin.room.2 hroom
    rw [Room, hdinode, hdisk', hmissing]
    omega
  · have hlen := hw.copied.length_eq_iff.2 hall
    have hstop := hw.done hlen
    refine ⟨bytes, hlen, fun j hj => hw.copied.read j hj, ?_⟩
    show (w.dinode sb ip).fileBytes (view w.disk) 0 (w.dinode sb ip).size.val =
      splice ((s.dinode sb ip).fileBytes (view s.disk) 0 (s.dinode sb ip).size.val) (s.off f) bytes
    rw [hdinode, hdisk']
    have hsize : (t.mem ip).size.val = max (s.dinode sb ip).size.val (s.off f + n1) := by
      rw [hw.size, hstop, hmem]
      rfl
    refine fileBytes_eq_splice hoff (by rw [hsize, hlen]) ?_ fun i hi => ?_
    · by_contra hgt
      exact Nat.lt_irrefl _ (hw.full MAXFILE (Nat.lt_of_not_le hgt)).1
    · rw [fileByte_view hw.mapped hi, hin.fileByte hi]
      exact hw.content i hi

namespace Chunked

variable {t : FsState P (FileState P)} (h : Chunked sb own f ip src n1 s t)
include h

omit [DecidableEq P] in
theorem off (hmax : s.off f + n1 ≤ MAXFILE * BSIZE) : t.off f = s.off f + n1 := by
  have hlt : (s.ext.file f).off.val + n1 ≤ 274432 := hmax
  have hfile : t.ext.file f = { s.ext.file f with off := (s.ext.file f).off + Uint.of n1 } := by
    rw [h.ext]
    exact Function.update_self ..
  unfold FsState.off
  rw [hfile]
  show ((s.ext.file f).off + Uint.of n1).val = _
  rw [Fin.val_add, Uint.val_of (by omega), Nat.mod_eq_of_lt (by omega)]

end Chunked

/-! ### All chunks -/

omit [DecidableEq P] in
theorem length_bytes : (s.bytes sb ip).length = (s.dinode sb ip).size.val := length_fileBytes ..

/-- What the loop of `filewrite` has done from byte `i` on when it ends at byte `k`. -/
structure Looped (sb : Superblock) (f : Fin NFILE) (ip : Fin NINODE) (src : Src) (n i : Nat)
    (s : FsState P (FileState P)) (k : Nat) (t : FsState P (FileState P)) : Prop where
  inum : t.inum ip = s.inum ip
  lower : i ≤ k
  upper : k ≤ n
  off : t.off f = s.off f + (k - i)
  max : i < k → s.off f + (k - i) ≤ MAXFILE * BSIZE
  first : i < k ↔ i < n ∧ s.off f ≤ (s.dinode sb ip).size.val ∧ s.off f + min (n - i) CHUNK ≤ MAXFILE * BSIZE
  same : k = i → t.bytes sb ip = s.bytes sb ip
  done : s.off f ≤ (s.dinode sb ip).size.val → s.off f + (n - i) ≤ MAXFILE * BSIZE →
    (∀ j, i ≤ j → j < n → (src.byte j).isSome) → k = n ∧ ∃ b, b.length = n - i ∧ (src.add i).Has b ∧
      t.bytes sb ip = splice (s.bytes sb ip) (s.off f) b

omit [DecidableEq P] in
/-- A chunk, and then the others. -/
theorem Looped.step {n i k : Nat} {t u : FsState P (FileState P)} (h : Chunked sb own f ip (src.add i) n1 s t)
    (hpos : 0 < s.ref ip) (hle : n1 ≤ n - i) (hone : 0 < n1) (hmax : s.off f + n1 ≤ MAXFILE * BSIZE)
    (hfirst : s.off f ≤ (s.dinode sb ip).size.val ∧ s.off f + min (n - i) CHUNK ≤ MAXFILE * BSIZE)
    (h' : Looped sb f ip src n (i + n1) t k u) : Looped sb f ip src n i s k u := by
  have hoff := h.off hmax
  have hlower := h'.lower
  refine ⟨h'.inum.trans (h.refs.inum ip hpos), by omega, h'.upper, ?_, fun _ => ?_, ⟨fun _ => ⟨by omega, hfirst⟩, fun _ => by omega⟩, by omega,
    fun hsize hmax' hall => ?_⟩
  · rw [h'.off, hoff]
    omega
  · by_cases hlt : i + n1 < k
    · have := h'.max hlt
      omega
    · omega
  · obtain ⟨b, hlen, hhas, hbytes⟩ := h.bytes fun j hj => by
      rw [src.byte_add]
      exact hall _ (by omega) (by omega)
    have hle' : s.off f ≤ (s.bytes sb ip).length := by rw [length_bytes]; exact hsize
    have hsize' : t.off f ≤ (t.dinode sb ip).size.val := by
      rw [← length_bytes, hbytes, length_splice hle']
      omega
    obtain ⟨hk, b', hlen', hhas', hbytes'⟩ := h'.done hsize' (by omega) fun j hj hj' => hall j (by omega) hj'
    refine ⟨hk, b ++ b', by rw [List.length_append]; omega, hhas.append hhas' fun j => ?_, ?_⟩
    · rw [src.byte_add, src.byte_add, hlen, Nat.add_assoc]
    · rw [hbytes', hbytes, hoff, ← hlen, splice_splice _ _ hle']

theorem holds_filewriteFrom (n : Nat) : ∀ (fuel i : Nat) {own : Nat → Option Nat} {s : FsState P (FileState P)},
    i ≤ n → n - i ≤ fuel → Wf sb own s → 0 < s.ref ip → (s.dinode sb ip).type ≠ T_DIR →
    (¬Room sb s ip → may "balloc: out of blocks") →
    (files.run p (filewriteFrom sb f ip src n fuel i) s).Holds may fun k t => Looped sb f ip src n i s k t := by
  intro fuel
  have hstop : ∀ {i : Nat} {s : FsState P (FileState P)}, i ≤ n → n - i = 0 → Looped sb f ip src n i s i s := by
    intro i s hi hzero
    refine ⟨rfl, le_refl _, hi, by omega, by omega, by omega, fun _ => rfl,
      fun _ _ _ => ⟨by omega, [], by rw [hzero]; rfl, nofun, ?_⟩⟩
    rw [splice_nil]
  induction fuel with
  | zero =>
    intro i own s hi hfuel _ _ _ _
    exact hstop hi (by omega)
  | succ fuel ih =>
    intro i own s hi hfuel h hpos htype hmay
    rw [filewriteFrom]
    by_cases hlt : i < n
    · rw [if_pos hlt]
      have hchunk : 0 < CHUNK := by decide
      have hle : min (n - i) CHUNK ≤ n - i := Nat.min_le_left ..
      have hone : 0 < min (n - i) CHUNK := by omega
      by_cases hok : s.off f ≤ (s.dinode sb ip).size.val ∧ s.off f + min (n - i) CHUNK ≤ MAXFILE * BSIZE
      · have hfirst := hok
        generalize min (n - i) CHUNK = n1 at hok hle hone
        refine holds_seq (holds_chunk h hpos htype (src.ok_add i) hone hok.1 hok.2 hmay) ?_
        rintro r t ⟨rfl, own', hc⟩
        have hroom : ¬Room sb t ip → may "balloc: out of blocks" := fun hnot => hmay fun hroom => hnot (hc.room hroom)
        rw [if_neg (by omega), if_neg (by simp)]
        exact (ih (i + n1) (by omega) (by omega) hc.wf (by rw [hc.refs.ref]; exact hpos) (by rw [hc.type]; exact htype)
          hroom).mono fun k u hloop => hloop.step hc hpos hle hone hok.2 hfirst
      · obtain ⟨t, hrun, hwf, hdisk, hext, hrefs⟩ := run_chunk_refused p f (src.add i) h hpos
          (show s.off f > (s.dinode sb ip).size.val ∨ s.off f + min (n - i) CHUNK > MAXFILE * BSIZE by omega)
        rw [run_bind_ok hrun, if_pos (by decide)]
        have hbytes : t.bytes sb ip = s.bytes sb ip := by rw [bytes, hdisk, hrefs.inum ip hpos, bytes]
        refine ⟨hrefs.inum ip hpos, le_refl _, hi, ?_, by omega, by omega, fun _ => hbytes, fun hoff hmax _ => absurd ⟨hoff, ?_⟩ hok⟩
        · rw [off, hext, off]
          omega
        · omega
    · rw [if_neg hlt]
      exact hstop hi (by omega)

/-! ### `filewrite` -/

/-- The file is open on an inode. A directory is not open for writing. -/
structure OpenInode (sb : Superblock) (s : FsState P (FileState P)) (f : Fin NFILE) : Prop where
  type : (s.ext.file f).type = .inode
  ref : 0 < s.ref (s.ext.file f).ip
  dir : (s.ext.file f).writable = true → (s.dinode sb (s.ext.file f).ip).type ≠ T_DIR

theorem holds_filewrite {n : Int} (h : Wf sb own s) (hf : OpenInode sb s f) (hwritable : (s.ext.file f).writable = true)
    (hmay : ¬Room sb s (s.ext.file f).ip → may "balloc: out of blocks") :
    (files.run p (filewrite sb f src n) s).Holds may fun r t => ∃ k,
      Looped sb f (s.ext.file f).ip src n.toNat 0 s k t ∧ r = if (k : Int) = n then n else -1 := by
  unfold filewrite
  rw [run_fload, if_pos hwritable, hf.type]
  refine holds_seq (holds_filewriteFrom n.toNat n.toNat 0 (Nat.zero_le _) (by omega) h hf.ref
    (hf.dir hwritable) hmay) ?_
  intro k t hloop
  by_cases hk : (k : Int) = n
  · rw [if_pos hk]
    exact ⟨k, hloop, (if_pos hk).symm⟩
  · rw [if_neg hk]
    exact ⟨k, hloop, (if_neg hk).symm⟩

theorem run_filewrite_readonly {n : Int} (h : (s.ext.file f).writable = false) :
    files.run p (filewrite sb f src n) s = .ok (-1 : Int) s := by
  unfold filewrite
  rw [run_fload, if_neg (by rw [h]; exact Bool.false_ne_true)]
  rfl

/-- What has happened is what the result `r` of `filewrite` says. -/
structure Honest (sb : Superblock) (f : Fin NFILE) (src : Src) (s : FsState P (FileState P)) (r : Int)
    (t : FsState P (FileState P)) : Prop where
  stored : 0 ≤ r → ∃ b, (b.length : Int) = r ∧ src.Has b ∧
    t.bytes sb (s.ext.file f).ip = splice (s.bytes sb (s.ext.file f).ip) (s.off f) b ∧
    t.off f = s.off f + b.length ∧ t.off f ≤ (t.dinode sb (s.ext.file f).ip).size.val
  failed : r = -1 → t.bytes sb (s.ext.file f).ip = s.bytes sb (s.ext.file f).ip ∧ t.off f = s.off f

/-- The call does nothing, or `writei` gets and accepts all chunks. -/
def AllOrNothing (sb : Superblock) (s : FsState P (FileState P)) (f : Fin NFILE) (src : Src) (n : Int) : Prop :=
  (s.ext.file f).writable = false ∨ n < 0 ∨
  (n = 0 ∧ s.off f ≤ (s.dinode sb (s.ext.file f).ip).size.val) ∨
  0 < n ∧ ((s.dinode sb (s.ext.file f).ip).size.val < s.off f ∨ MAXFILE * BSIZE < s.off f + min n.toNat CHUNK ∨
    s.off f + n.toNat ≤ MAXFILE * BSIZE ∧ ∀ j, j < n.toNat → (src.byte j).isSome)

section Result

variable {n : Int} {k : Nat} {t : FsState P (FileState P)} (h : Looped sb f (s.ext.file f).ip src n.toNat 0 s k t)
include h

omit [DecidableEq P]

theorem Looped.honest_of_zero (hk : k = 0) : Honest sb f src s (-1) t := by
  have hoff := h.off
  exact ⟨by omega, fun _ => ⟨h.same hk, by omega⟩⟩

theorem Looped.honest (hc : AllOrNothing sb s f src n) (hw : (s.ext.file f).writable = true) :
    Honest sb f src s (if (k : Int) = n then n else -1) t := by
  have hupper := h.upper
  have hoff := h.off
  rcases hc with hro | hneg | ⟨rfl, hsize⟩ | ⟨hpos, hc⟩
  · rw [hw] at hro
    cases hro
  · rw [if_neg (by omega)]
    exact h.honest_of_zero (by omega)
  · obtain rfl : k = 0 := by
      have : (0 : Int).toNat = 0 := rfl
      omega
    rw [if_pos Nat.cast_zero]
    refine ⟨fun _ => ⟨[], rfl, nofun, ?_, by simpa using hoff, ?_⟩, by omega⟩
    · rw [splice_nil]
      exact h.same rfl
    · rw [← length_bytes, h.same rfl, length_bytes]
      omega
  · by_cases hfirst : 0 < k
    · obtain ⟨-, hsize, hmin⟩ := h.first.1 hfirst
      obtain ⟨hmax, hall⟩ : s.off f + n.toNat ≤ MAXFILE * BSIZE ∧ ∀ j, j < n.toNat → (src.byte j).isSome := by
        rcases hc with hgt | hgt | hgood
        · omega
        · rw [Nat.sub_zero] at hmin
          omega
        · exact hgood
      obtain ⟨hk, b, hlen, hhas, hbytes⟩ := h.done hsize (by omega) fun j _ hj => hall j hj
      rw [if_pos (by omega)]
      refine ⟨fun _ => ⟨b, by omega, fun j hj => ?_, hbytes, by omega, ?_⟩, by omega⟩
      · rw [← hhas j hj, src.byte_add, Nat.zero_add]
      · rw [← length_bytes, hbytes, length_splice (by rw [length_bytes]; exact hsize)]
        omega
    · rw [if_neg (by omega)]
      exact h.honest_of_zero (by omega)

theorem Looped.allOrNothing (hh : Honest sb f src s (if (k : Int) = n then n else -1) t) :
    AllOrNothing sb s f src n := by
  have hoff := h.off
  by_contra hc
  unfold AllOrNothing at hc
  simp only [not_or, not_and, not_lt] at hc
  obtain ⟨-, hn, hzero, hpos⟩ := hc
  rcases Int.lt_or_eq_of_le hn with hlt | rfl
  · obtain ⟨hsize, hmin, hbad⟩ := hpos hlt
    have hk : 0 < k := h.first.2 ⟨by omega, hsize, by rw [Nat.sub_zero]; exact hmin⟩
    by_cases heq : (k : Int) = n
    · rw [if_pos heq] at hh
      obtain ⟨b, hlen, hhas, -⟩ := hh.stored hn
      have hmax := h.max hk
      refine hbad (by omega) fun j hj => ?_
      rw [hhas j (by omega)]
      rfl
    · rw [if_neg heq] at hh
      have := (hh.failed rfl).2
      omega
  · have hzero' := hzero rfl
    obtain rfl : k = 0 := Nat.le_zero.1 h.upper
    rw [if_pos Nat.cast_zero] at hh
    obtain ⟨-, -, -, -, -, hle⟩ := hh.stored (le_refl _)
    rw [← length_bytes, h.same rfl, length_bytes] at hle
    omega

end Result

/-- `filewrite` does what its result says just if it does nothing or `writei` accepts all chunks and finds all
their bytes. With enough free blocks it returns. -/
theorem filewrite_honest_iff {um : UserMem} {addr : Nat} {n : Int} (h : Wf sb own s) (hf : OpenInode sb s f) :
    (Room sb s (s.ext.file f).ip → ∃ r t, files.run p (filewrite sb f (.user um addr) n) s = .ok r t) ∧
    ∀ r t, files.run p (filewrite sb f (.user um addr) n) s = .ok r t →
      t.inum (s.ext.file f).ip = s.inum (s.ext.file f).ip ∧
      (Honest sb f (.user um addr) s r t ↔ AllOrNothing sb s f (.user um addr) n) := by
  cases hw : (s.ext.file f).writable with
  | false =>
      have hrun : files.run p (filewrite sb f (.user um addr) n) s = .ok (-1 : Int) s := run_filewrite_readonly hw
      refine ⟨fun _ => ⟨_, _, hrun⟩, fun r t hok => ?_⟩
      rw [hrun] at hok
      cases hok
      exact ⟨rfl, fun _ => Or.inl hw, fun _ => ⟨by omega, fun _ => ⟨rfl, rfl⟩⟩⟩
  | true =>
      have hholds : (files.run p (filewrite sb f (.user um addr) n) s).Holds
        (fun _ => ¬Room sb s (s.ext.file f).ip) _ := holds_filewrite h hf hw id
      refine ⟨fun hroom => ?_, fun r t hok => ?_⟩
      · obtain ⟨r, t, hok, -⟩ := (hholds.mono_may fun _ hno => hno hroom).exists_ok
        exact ⟨r, t, hok⟩
      · obtain ⟨k, hloop, rfl⟩ := hholds.of_ok hok
        exact ⟨hloop.inum, fun hh => hloop.allOrNothing hh, fun hc => hloop.honest hc hw⟩

instance : NeZero NFILE := ⟨by decide⟩

/-- The empty file of the smallest disk is open for writing. -/
def emptyFile (P : Type) : FsState P (FileState P) :=
  boot Image.tiny 2 { FileState.init 1 with file := fun _ => ⟨.inode, true, true, 0, 0, 0⟩ }

theorem wf_emptyFile (P : Type) : Wf Superblock.tiny (fun _ => none) (emptyFile P) :=
  wf_boot Image.tiny _ (by decide) (by decide)

theorem dinode_emptyFile (P : Type) : (emptyFile P).dinode Superblock.tiny 0 = Dinode.fresh T_FILE :=
  Image.tiny.dinode_disk (show 2 < 4 by decide)

theorem openInode_emptyFile (P : Type) : OpenInode Superblock.tiny (emptyFile P) 0 where
  type := rfl
  ref := Int.one_pos
  dir _ := by
    show ((emptyFile P).dinode Superblock.tiny 0).type ≠ T_DIR
    rw [dinode_emptyFile]
    decide

theorem room_emptyFile (P : Type) : Room Superblock.tiny (emptyFile P) 0 := by
  have hfree : (Finset.Ico 3 300).card ≤ Superblock.tiny.free (emptyFile P).disk :=
    Image.tiny.card_le_free fun b hb => ⟨(Finset.mem_Ico.1 hb).2, (Finset.mem_Ico.1 hb).1, rfl⟩
  have hmissing : ((emptyFile P).dinode Superblock.tiny 0).missing (view (emptyFile P).disk) (Finset.range NSLOT) ≤ NSLOT :=
    Nat.le_trans (card_filter_le ..) (by rw [card_range])
  exact hmissing.trans ((by decide : NSLOT ≤ 300 - 3).trans (Nat.card_Ico 3 300 ▸ hfree))

/-- Five bytes. -/
theorem filewrite_honest_iff_five : ∃ r t,
    files.run () (filewrite Superblock.tiny 0 (.user (fun _ => some fun _ => 7) 0) 5) (emptyFile Unit) = .ok r t ∧
    Honest Superblock.tiny 0 (.user (fun _ => some fun _ => 7) 0) (emptyFile Unit) r t := by
  obtain ⟨hret, hiff⟩ := filewrite_honest_iff (wf_emptyFile Unit) (openInode_emptyFile Unit)
  obtain ⟨r, t, hok⟩ := hret (room_emptyFile Unit)
  have hmax : (emptyFile Unit).off 0 + (5 : Int).toNat ≤ MAXFILE * BSIZE := by decide
  exact ⟨r, t, hok, (hiff r t hok).2.2 (Or.inr (Or.inr (Or.inr ⟨by decide, Or.inr (Or.inr ⟨hmax, fun _ _ => rfl⟩)⟩)))⟩

/-- One byte from a page that is not there. -/
theorem filewrite_unmapped : ∃ t,
    files.run () (filewrite Superblock.tiny 0 (.user (fun _ => none) 0) 1) (emptyFile Unit) = .ok (1 : Int) t ∧
    ¬Honest Superblock.tiny 0 (.user (fun _ => none) 0) (emptyFile Unit) 1 t := by
  have hpass : (files.run () (filewrite Superblock.tiny 0 (.user (fun _ => none) 0) 1) (emptyFile Unit)).passes
      (fun r _ => r == 1) = true := by decide +kernel
  obtain ⟨r, t, hok, hr⟩ := Outcome.exists_of_passes hpass
  cases eq_of_beq hr
  refine ⟨t, hok, fun hh => ?_⟩
  obtain ⟨b, hlen, hhas, -⟩ := hh.stored Int.one_nonneg
  cases hhas 0 (by omega)

end FsState

end Xv6
