import Xv6.Seq.Filewrite
import Xv6.Seq.FullDir

/-! `fileread` on an inode, for a process that runs alone. The length goes to `readi` as a `uint`, so that a negative
one asks for the rest of the file, and a copy that fails may have stored a part of a block. -/

namespace Xv6

open Lib Dinode

namespace FsState

open Fs

variable {P : Type} [DecidableEq P] {p : P} {sb : Superblock} {own : Nat → Option Nat} {s : FsState P (FileState P)}
  {ip : Fin NINODE} {f : Fin NFILE} {dst : Dst} {n : Int} {size off k extra : Nat}

/-! ### The length -/

/-- The number of bytes that `readi` sets out to copy. -/
def wanted (size off : Nat) (n : Int) : Nat :=
  if 0 ≤ n then min n.toNat (size - off) else if -n ≤ off then 0 else size - off

variable (p off) in
theorem run_readiStored (howner : ∀ b, s.owner b = none) (hintact : (s.mem ip).Intact sb (s.blocks own ip))
    (hdst : dst.source.Ok) (hn : -2 ^ 31 ≤ n ∧ n < 2 ^ 31) :
    ∃ k extra, ReadOut dst off (wanted (s.mem ip).size.val off n) k extra ∧
      files.run p (readiStored sb ip dst off (n % 2 ^ 32).toNat) s =
        .ok ((s.mem ip).fileBytes (s.blocks own ip) off k, (s.mem ip).fileBytes (s.blocks own ip) (off + k) extra) s := by
  have hsize : (s.mem ip).size.val ≤ 274432 := hintact.size_le
  generalize hlen : (n % 2 ^ 32).toNat = len
  have hneg : n < 0 → (len : Int) = 2 ^ 32 + n := by omega
  have hpos : 0 ≤ n → len = n.toNat := by omega
  unfold readiStored
  rw [run_iload]
  by_cases hno : off > (s.mem ip).size.val ∨ (off + len) % 2 ^ 32 < off
  · have hzero : wanted (s.mem ip).size.val off n = 0 := by
      unfold wanted
      split_ifs <;> omega
    rw [if_pos (show off > (s.icache.slot ip).inode.size.val ∨ _ from hno), hzero]
    exact ⟨0, 0, ⟨nofun, Or.inl rfl, Or.inl ⟨rfl, rfl⟩⟩, rfl⟩
  · have hcut : (if off + len > (s.mem ip).size.val then (s.mem ip).size.val - off else len) =
        wanted (s.mem ip).size.val off n := by
      unfold wanted
      split_ifs <;> omega
    rw [if_neg (show ¬(off > (s.icache.slot ip).inode.size.val ∨ _) from hno)]
    have hle : off + wanted (s.mem ip).size.val off n ≤ max off (s.mem ip).size.val := by
      unfold wanted
      split_ifs <;> omega
    obtain ⟨k, extra, hout, hrun⟩ := run_readiFrom fileExec p sb howner hintact.mapped
      (wanted (s.mem ip).size.val off n) _ 0 off dst [] hdst (le_refl _) fun i hi hi' =>
        hintact.full (i / BSIZE) (Nat.lt_of_le_of_lt (Nat.div_mul_le_self i BSIZE) (by omega))
    refine ⟨k, extra, hout, ?_⟩
    rw [← hcut] at hrun
    exact hrun

/-! ### The result -/

/-- The process has returned `r`, and stored these bytes from `addr` on. -/
structure Truthful (sb : Superblock) (f : Fin NFILE) (n : Int) (s : FsState P (FileState P)) (r : Int)
    (stored : List UInt8) (t : FsState P (FileState P)) : Prop where
  result : r ≤ max n 0
  within : (stored.length : Int) ≤ max n 0
  bytes : 0 < r → (stored.length : Int) = r ∧
    stored = ((s.bytes sb (s.ext.file f).ip).drop (s.off f)).take r.toNat ∧ (t.off f : Int) = s.off f + r

/-- A copy fails only in the first block or at the end of one. -/
def WholeBlocks (dst : Dst) (off n : Nat) : Prop :=
  ∀ j, j < n → (∀ i, i < j → (dst.source.byte i).isSome) → dst.source.byte j = none →
    off % BSIZE + j < BSIZE ∨ (off + j) % BSIZE = 0

/-- The length is not negative, and no copy fails after whole blocks were copied and another one in part. Or it is
negative and there is nothing to read, or no page to store it. -/
def ReadsWell (size off : Nat) (dst : Dst) (n : Int) : Prop :=
  if 0 ≤ n then WholeBlocks dst off (min n.toNat (size - off))
  else -n ≤ off ∨ size ≤ off ∨ dst.source.byte 0 = none

theorem ReadOut.wholeBlocks_iff {m : Nat} (h : ReadOut dst off m k extra) :
    WholeBlocks dst off m ↔ (0 < k → extra = 0) := by
  constructor
  · intro hwhole hk
    rcases h.stop with ⟨-, hextra⟩ | ⟨hlt, hnone, hin⟩
    · exact hextra
    · have hin' : (off + k) % 1024 + extra < 1024 := hin
      have hstop : off % 1024 + (k + extra) < 1024 ∨ (off + (k + extra)) % 1024 = 0 :=
        hwhole _ hlt h.there hnone
      have hk' : k = 0 ∨ k = m ∨ (off + k) % 1024 = 0 := h.whole
      omega
  · intro hextra j hj hbefore hnone
    rcases h.stop with ⟨rfl, rfl⟩ | ⟨hlt, hnone', hin⟩
    · have hsome := h.there j hj
      rw [hnone] at hsome
      cases hsome
    · obtain rfl : j = k + extra := by
        rcases Nat.lt_trichotomy j (k + extra) with hjk | rfl | hjk
        · have hsome := h.there j hjk
          rw [hnone] at hsome
          cases hsome
        · rfl
        · have hsome := hbefore _ hjk
          rw [hnone'] at hsome
          cases hsome
      have hin' : (off + k) % 1024 + extra < 1024 := hin
      show off % 1024 + (k + extra) < 1024 ∨ (off + (k + extra)) % 1024 = 0
      have hk' : k = 0 ∨ k = m ∨ (off + k) % 1024 = 0 := h.whole
      omega

theorem ReadOut.readsWell_iff (h : ReadOut dst off (wanted size off n) k extra) :
    ReadsWell size off dst n ↔ (k : Int) ≤ max n 0 ∧ ((k + extra : Nat) : Int) ≤ max n 0 ∧ (0 < k → extra = 0) := by
  unfold ReadsWell
  by_cases hn : 0 ≤ n
  · have hle : k + extra ≤ wanted size off n := h.stop.elim (by omega) fun hs => Nat.le_of_lt hs.1
    unfold wanted at h hle
    rw [if_pos hn] at h hle
    rw [if_pos hn, h.wholeBlocks_iff]
    constructor
    · exact fun hextra => ⟨by omega, by omega, hextra⟩
    · exact fun hall => hall.2.2
  · rw [if_neg hn]
    have hwanted : wanted size off n = 0 ↔ -n ≤ off ∨ size ≤ off := by
      unfold wanted
      split_ifs <;> omega
    constructor
    · intro hnone
      have hzero : k + extra = 0 := by
        by_contra hpos
        rcases hnone with hoff | hsize | hnone
        · have := hwanted.2 (Or.inl hoff)
          rcases h.stop with hs | hs <;> omega
        · have := hwanted.2 (Or.inr hsize)
          rcases h.stop with hs | hs <;> omega
        · have hsome := h.there 0 (by omega)
          rw [hnone] at hsome
          cases hsome
      omega
    · rintro ⟨-, hle, -⟩
      have hzero : k + extra = 0 := by omega
      rcases h.stop with ⟨hk, -⟩ | ⟨-, hnone, -⟩
      · exact (hwanted.1 (by omega)).imp_right Or.inl
      · rw [hzero] at hnone
        exact Or.inr (Or.inr hnone)

omit [DecidableEq P] in
/-- The bytes of a file that `readi` copied. -/
theorem fileBytes_locked {u : FsState P (FileState P)} (hintact : (u.mem ip).Intact sb (u.blocks own ip))
    (hk : off + k ≤ (u.mem ip).size.val) : (u.mem ip).fileBytes (u.blocks own ip) off k =
      (((u.mem ip).fileBytes (view u.disk) 0 (u.mem ip).size.val).drop off).take k := by
  have hsame : (u.mem ip).fileBytes (view u.disk) 0 (u.mem ip).size.val =
      (u.mem ip).fileBytes (u.blocks own ip) 0 (u.mem ip).size.val := by
    refine List.map_congr_left fun j hj => fileByte_view hintact.mapped ?_
    rw [Nat.zero_add]
    exact Nat.lt_of_lt_of_le (List.mem_range.1 hj) hintact.size_le
  obtain ⟨rest, hrest⟩ := Nat.exists_eq_add_of_le hk
  rw [hsame, hrest, ← fileBytes_append, ← fileBytes_append, Nat.zero_add, List.append_assoc,
    List.drop_left' length_fileBytes, List.take_left' length_fileBytes]

variable (p dst) in
/-- What `fileread` does on an inode. -/
theorem run_fileread (h : Wf sb own s) (hf : OpenInode sb s f) (hreadable : (s.ext.file f).readable = true)
    (hdst : dst.source.Ok) (hn : -2 ^ 31 ≤ n ∧ n < 2 ^ 31) :
    ∃ k extra stored t, ReadOut dst (s.off f) (wanted (s.dinode sb (s.ext.file f).ip).size.val (s.off f) n) k extra ∧
      files.run p (fileread sb f dst n) s = .ok ((k : Int), stored) t ∧ stored.length = k + extra ∧
      stored.take k = ((s.bytes sb (s.ext.file f).ip).drop (s.off f)).take k ∧ t.off f = s.off f + k := by
  generalize hip : (s.ext.file f).ip = ip
  have hpos : 0 < s.ref ip := hip ▸ hf.ref
  have halone : Alone sb p own s := h.alone
  obtain ⟨u, hlock, hin⟩ := run_ilock fileExec halone (Kept.refl halone) (h.unlocked ip) hpos
  have hdisk : u.disk = s.disk := by rw [hin.frame]; rfl
  have hext : u.ext = s.ext := by rw [hin.frame]; rfl
  have hmem : u.mem ip = s.dinode sb ip := by
    rw [hin.tidy.clean, hin.inum, hdisk]
    rfl
  have hintact := hin.tidy.intact
  obtain ⟨k, extra, hout, hread⟩ := run_readiStored p (s.off f) hin.alone.owner hintact hdst hn
  have hle : k = 0 ∨ s.off f + k ≤ (u.mem ip).size.val := by
    have hk : k ≤ wanted (u.mem ip).size.val (s.off f) n := by rcases hout.stop with hs | hs <;> omega
    unfold wanted at hk
    split_ifs at hk <;> omega
  have hbytes : (u.mem ip).fileBytes (u.blocks own ip) (s.off f) k = ((s.bytes sb ip).drop (s.off f)).take k := by
    rcases hle with rfl | hle
    · rw [List.take_zero]
      rfl
    · rw [fileBytes_locked hintact hle, hmem, hdisk]
      rfl
  generalize hb : (u.mem ip).fileBytes (u.blocks own ip) (s.off f) k = bytes at hread hbytes
  generalize hr : (u.mem ip).fileBytes (u.blocks own ip) (s.off f + k) extra = rest at hread
  have hlen : bytes.length = k := by
    rw [← hb]
    exact length_fileBytes
  have hlen' : rest.length = extra := by
    rw [← hr]
    exact length_fileBytes
  -- the offset is advanced where something was read, and the inode is unlocked
  let g : FileState P := if k > 0 then s.ext.setFile f { s.ext.file f with off := (s.ext.file f).off + Uint.of k }
    else s.ext
  refine ⟨k, extra, bytes ++ rest, (u.setExt g).setCache (u.icache.releasesleep ip), hmem ▸ hout, ?_, ?_, ?_, ?_⟩
  · subst hip
    change files.run p (readiStored sb _ dst (s.ext.file f).off.val _) u = _ at hread
    unfold fileread
    rw [run_fload, if_pos hreadable, hf.type]
    dsimp only
    rw [Machine.run_bind_ok hlock, run_fload, hext, Machine.run_bind_ok hread]
    dsimp only
    have hunlock : ∀ x : FileState P, files.run p (iunlock (s.ext.file f).ip >>= fun _ =>
        pure ((bytes.length : Int), bytes ++ rest) : FsM Nat FileSig (Int × List UInt8)) (u.setExt x) =
          .ok ((k : Int), bytes ++ rest) ((u.setExt x).setCache (u.icache.releasesleep (s.ext.file f).ip)) := by
      intro x
      rw [← hlen]
      exact run_iunlock (s := u.setExt x) hin.lock (hin.alone.locked _ hin.lock).1
    by_cases hk : k > 0
    · rw [if_pos (hlen.symm ▸ hk), run_fstore, hunlock, hext, hlen, show g = _ from if_pos hk]
    · rw [if_neg (hlen.symm ▸ hk), pure_bind, show g = u.ext from (if_neg hk).trans hext.symm]
      exact hunlock u.ext
  · rw [List.length_append, hlen, hlen']
  · rw [List.take_left' hlen, hbytes]
  · show (g.file f).off.val = (s.ext.file f).off.val + k
    by_cases hk : k > 0
    · have hsize : (u.mem ip).size.val ≤ 274432 := hintact.size_le
      have hsum : (s.ext.file f).off.val + k ≤ 274432 := Nat.le_trans (hle.resolve_left (by omega)) hsize
      have hfile : g.file f = { s.ext.file f with off := (s.ext.file f).off + Uint.of k } := by
        rw [show g = _ from if_pos hk]
        exact Function.update_self ..
      rw [hfile]
      show ((s.ext.file f).off + Uint.of k).val = _
      rw [Fin.val_add, Uint.val_of (by omega), Nat.mod_eq_of_lt (by omega)]
    · rw [show g = _ from if_neg hk]
      omega

/-- `fileread` stays within the length, returns what it stored and advances the offset by that if and only if the
file is not readable or `ReadsWell` holds. -/
theorem fileread_truthful_iff (h : Wf sb own s) (hf : OpenInode sb s f) (mapped : Nat → Bool) {addr : Nat}
    (haddr : addr < 2 ^ 64) (hn : -2 ^ 31 ≤ n ∧ n < 2 ^ 31) :
    ∃ r stored t, files.run p (fileread sb f (.user mapped addr) n) s = .ok (r, stored) t ∧
      (Truthful sb f n s r stored t ↔ (s.ext.file f).readable = false ∨
        ReadsWell (s.dinode sb (s.ext.file f).ip).size.val (s.off f) (.user mapped addr) n) := by
  cases hreadable : (s.ext.file f).readable with
  | false =>
      refine ⟨-1, [], s, ?_, iff_of_true ⟨by omega, by simp, by omega⟩ (Or.inl rfl)⟩
      unfold fileread
      rw [run_fload, if_neg (by rw [hreadable]; exact Bool.false_ne_true)]
      rfl
  | true =>
      obtain ⟨k, extra, stored, t, hout, hrun, hlen, hbytes, hoff⟩ := run_fileread p (.user mapped addr) h hf hreadable
        haddr hn
      refine ⟨k, stored, t, hrun, ?_⟩
      rw [or_iff_right (by simp), hout.readsWell_iff]
      constructor
      · intro ht
        refine ⟨ht.result, hlen ▸ ht.within, fun hk => ?_⟩
        have := (ht.bytes (by omega)).1
        omega
      · rintro ⟨hk, hall, hextra⟩
        refine ⟨hk, hlen ▸ hall, fun hpos => ?_⟩
        have hzero := hextra (by omega)
        rw [hzero, Nat.add_zero] at hlen
        refine ⟨by omega, ?_, by omega⟩
        rw [Int.toNat_natCast, ← hbytes, ← hlen, List.take_length]

/-- The root directory, full of entries, is open for reading. -/
def openRoot : FsState Unit (FileState Unit) :=
  boot FullDir.image ROOTINO { FileState.init 0 with file := fun _ => ⟨.inode, true, false, 0, 0, 0⟩ }

theorem wf_openRoot : Wf Superblock.tiny FullDir.own openRoot := wf_boot FullDir.image _ (by decide) (by decide)

/-- The first five bytes of the root directory. -/
theorem fileread_truthful_iff_five : ∃ stored t,
    files.run () (fileread Superblock.tiny 0 (.user (fun _ => true) 0) 5) openRoot = .ok (5, stored) t ∧
      stored = [2, 0, 128, 128, 128] ∧ Truthful Superblock.tiny 0 5 openRoot 5 stored t := by
  obtain ⟨r, stored, t, hrun, hiff⟩ := fileread_truthful_iff (p := ()) (f := 0) (n := 5) wf_openRoot
    ⟨rfl, Int.one_pos, nofun⟩ (fun _ => true) (show 0 < 2 ^ 64 by decide) (by decide)
  have hpass : (files.run () (fileread Superblock.tiny 0 (.user (fun _ => true) 0) 5) openRoot).passes
      (fun r _ => r == (5, [2, 0, 128, 128, 128])) = true := by decide +kernel
  rw [hrun] at hpass
  cases eq_of_beq hpass
  exact ⟨_, t, hrun, rfl, hiff.2 (Or.inr fun j _ _ hno => nomatch hno)⟩

/-- A length of -1 reads all of it. -/
theorem fileread_negative : ∃ stored t,
    files.run () (fileread Superblock.tiny 0 (.user (fun _ => true) 0) (-1)) openRoot = .ok (274432, stored) t := by
  have hsize : (openRoot.dinode Superblock.tiny 0).size.val = 274432 := by
    have hdinode : openRoot.dinode Superblock.tiny 0 = FullDir.fullRoot := FullDir.image.dinode_disk (show 1 < 4 by decide)
    rw [hdinode]
    rfl
  obtain ⟨k, extra, stored, t, hout, hrun, -⟩ := run_fileread (f := 0) () (.user (fun _ => true) 0) (n := -1)
    wf_openRoot ⟨rfl, Int.one_pos, nofun⟩ rfl (show 0 < 2 ^ 64 by decide) (by decide)
  have hwanted : wanted (openRoot.dinode Superblock.tiny (openRoot.ext.file 0).ip).size.val (openRoot.off 0) (-1) = 274432 := by
    rw [show (openRoot.ext.file 0).ip = 0 from rfl, hsize]
    rfl
  rw [hwanted] at hout
  obtain ⟨rfl, -⟩ : k = 274432 ∧ extra = 0 := hout.stop.elim id fun hno => nomatch hno.2.1
  exact ⟨stored, t, hrun⟩

end FsState

end Xv6
