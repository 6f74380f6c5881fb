import Xv6.Seq.Blocks
import Xv6.Seq.Source

/-! The content of a locked inode, for a process that runs alone: what `readi` reads and what `writei` stores. A
write ends at the first byte of the source that is not there. -/

namespace Xv6

open Lib Function Machine Superblock Dinode Finset

namespace Dinode

variable {v v' : Dinode} {m m' : BlockMap}

/-- The number of slots among those in `S` that name no block. -/
def missing (v : Dinode) (m : BlockMap) (S : Finset Nat) : Nat := (S.filter fun j => v.slot m j = 0).card

/-- The slots in `S` are enough for the bytes of a file from `off` on. -/
structure Covers (S : Finset Nat) (off len : Nat) : Prop where
  lt : ∀ j ∈ S, j < NSLOT
  slot : ∀ i, off ≤ i → i < off + len → fileSlot (i / BSIZE) ∈ S ∧ (¬i / BSIZE < NDIRECT → NDIRECT ∈ S)

/-- The slots that `bmap` has to fill for block `bn` of a file. -/
def needed (v : Dinode) (m : BlockMap) (bn : Nat) : Finset Nat :=
  (if v.slot m (fileSlot bn) = 0 then {fileSlot bn} else ∅) ∪ if ¬bn < NDIRECT ∧ v.addr NDIRECT = 0 then {NDIRECT} else ∅

theorem card_needed (v : Dinode) (m : BlockMap) (bn : Nat) : (v.needed m bn).card = v.need m bn := by
  have hne := fileSlot_ne bn
  unfold needed need
  split <;> split <;> simp [hne]

theorem mem_needed {bn j : Nat} (h : j ∈ v.needed m bn) :
    v.slot m j = 0 ∧ (j = fileSlot bn ∨ ¬bn < NDIRECT ∧ j = NDIRECT) := by
  rcases mem_union.1 h with h | h
  · split at h
    · rename_i hzero
      rw [mem_singleton.1 h]
      exact ⟨hzero, Or.inl rfl⟩
    · exact absurd h (notMem_empty j)
  · split at h
    · rename_i hzero
      rw [mem_singleton.1 h, slot_of_le (le_refl _)]
      exact ⟨hzero.2, Or.inr ⟨hzero.1, rfl⟩⟩
    · exact absurd h (notMem_empty j)

section Missing

variable {S : Finset Nat} {bn : Nat} (hbn : fileSlot bn ∈ S) (hind : ¬bn < NDIRECT → NDIRECT ∈ S)
include hbn hind

theorem mem_of_needed {j : Nat} (h : j ∈ v.needed m bn) : j ∈ S := by
  rcases (mem_needed h).2 with rfl | ⟨hdir, rfl⟩
  · exact hbn
  · exact hind hdir

theorem need_le_missing : v.need m bn ≤ v.missing m S := by
  rw [← card_needed]
  exact card_le_card fun j hj => mem_filter.2 ⟨mem_of_needed hbn hind hj, (mem_needed hj).1⟩

/-- A block that `bmap` gave to the inode is not missing any more. -/
theorem missing_grow (h : Grows v m v' m') (hS : ∀ j ∈ S, j < NSLOT) (hnew : v'.slot m' (fileSlot bn) ≠ 0) :
    v'.missing m' S + v.need m bn ≤ v.missing m S := by
  have hfilled : ∀ j ∈ v.needed m bn, v'.slot m' j ≠ 0 := by
    intro j hj
    rcases (mem_needed hj).2 with rfl | ⟨hdir, rfl⟩
    · exact hnew
    · intro hzero
      rw [slot_of_le (le_refl _)] at hzero
      rw [fileSlot_of_ge hdir] at hnew
      exact hnew (slot_of_none (by omega) (by rw [hzero]; exact h.mapped.zero))
  rw [← card_needed, missing, missing, ← card_union_of_disjoint]
  · refine card_le_card fun j hj => ?_
    rcases mem_union.1 hj with hj | hj
    · obtain ⟨hjS, hzero⟩ := mem_filter.1 hj
      refine mem_filter.2 ⟨hjS, ?_⟩
      by_contra hne
      rw [h.slots j (hS j hjS) hne] at hzero
      exact hne hzero
    · exact mem_filter.2 ⟨mem_of_needed hbn hind hj, (mem_needed hj).1⟩
  · exact disjoint_left.2 fun j hj hjN => hfilled j hjN (mem_filter.1 hj).2

end Missing

theorem missing_congr {S : Finset Nat} (h : ∀ j ∈ S, v'.slot m' j = v.slot m j) : v'.missing m' S = v.missing m S := by
  unfold missing
  congr 1
  exact filter_congr fun j hj => by rw [h j hj]

/-- A store to block `bn` of a file. -/
theorem data_store (h : v.Mapped m) {bn : Nat} (hbn : bn < MAXFILE) {d : Block}
    (hslot : v.slot m (fileSlot bn) ≠ 0) {bn' : Nat} (hbn' : bn' < MAXFILE) :
    v.data (update m (v.slot m (fileSlot bn)) (some d)) bn' = if bn' = bn then some d else v.data m bn' := by
  have hind : v.slot m (fileSlot bn) ≠ v.addr NDIRECT := by
    intro heq
    rw [← slot_of_le (v := v) (m := m) (le_refl NDIRECT)] at heq
    exact fileSlot_ne bn (h.inj _ _ (fileSlot_lt hbn) (by decide) hslot heq)
  rw [data, slot_update hind]
  split
  · rename_i heq
    rw [heq, update_self]
  · rename_i hne
    rw [update_of_ne, data]
    intro heq
    exact hne (fileSlot_inj (h.inj _ _ (fileSlot_lt hbn) (fileSlot_lt hbn') hslot heq.symm)).symm

theorem fileByte_copy (h : v.Mapped m) {off : Nat} {d : Block} {bytes : List UInt8} (hbn : off / BSIZE < MAXFILE)
    (hslot : v.slot m (fileSlot (off / BSIZE)) ≠ 0) (hd : v.data m (off / BSIZE) = some d)
    (hlen : off % BSIZE + bytes.length ≤ BSIZE) {i : Nat} (hi : i < MAXFILE * BSIZE) :
    v.fileByte (update m (v.slot m (fileSlot (off / BSIZE))) (some (d.copy (off % BSIZE) bytes))) i =
      if off ≤ i ∧ i < off + bytes.length then bytes.getD (i - off) 0 else v.fileByte m i := by
  have hbn' : i / BSIZE < MAXFILE := Nat.div_lt_of_lt_mul (Nat.mul_comm MAXFILE BSIZE ▸ hi)
  have hlt : i % BSIZE < BSIZE := Nat.mod_lt _ (by decide)
  have hlen' : off % 1024 + bytes.length ≤ 1024 := hlen
  have hdata := data_store h hbn (d := d.copy (off % BSIZE) bytes) hslot hbn'
  by_cases heq : i / BSIZE = off / BSIZE
  · rw [if_pos heq] at hdata
    have heq' : i / 1024 = off / 1024 := heq
    rw [fileByte_of_data hdata, Block.copy]
    by_cases hin : off ≤ i ∧ i < off + bytes.length
    · have hsub : i % BSIZE - off % BSIZE = i - off := by
        show i % 1024 - off % 1024 = i - off
        omega
      rw [if_pos hin, Bytes.get_write_of_mem _ _ hlt (by show off % 1024 ≤ i % 1024; omega)
        (by show i % 1024 < off % 1024 + bytes.length; omega), hsub]
    · rw [if_neg hin, Bytes.get_write_of_not_mem _ _ (by
        show ¬(off % 1024 ≤ i % 1024 ∧ i % 1024 < off % 1024 + bytes.length)
        omega), fileByte_of_data (heq ▸ hd)]
  · rw [if_neg heq] at hdata
    have heq' : ¬i / 1024 = off / 1024 := heq
    rw [fileByte_congr hdata, if_neg]
    omega

end Dinode

namespace FsState

open Fs

variable {P X : Type} {F : Sig} {more : P → (f : F.Op) → X → Outcome X (F.Ret f)} {p : P}
  {sb : Superblock} {s : FsState P X} {may : String → Prop} {own : Nat → Option Nat} {ip : Fin NINODE}

theorem data_blocks (h : (s.mem ip).Mapped (s.blocks own ip)) {bn : Nat} (hbn : bn < MAXFILE)
    (hslot : (s.mem ip).slot (s.blocks own ip) (fileSlot bn) ≠ 0) :
    own ((s.mem ip).slot (s.blocks own ip) (fileSlot bn)) = some (s.inum ip) ∧
      (s.mem ip).data (s.blocks own ip) bn = some (s.disk ((s.mem ip).slot (s.blocks own ip) (fileSlot bn))) := by
  have hown := (isSome_content s.disk).1 (h.isSome (fileSlot_lt hbn) hslot)
  exact ⟨hown, content_of_own hown⟩

/-! ### Reads -/

/-- What a read of `n` bytes at `off` has done: `k` bytes are counted, and `extra` ones that follow them are stored,
because the copy of a block failed. -/
structure ReadOut (dst : Dst) (off n k extra : Nat) : Prop where
  there : ∀ j, j < k + extra → (dst.source.byte j).isSome
  whole : k = 0 ∨ k = n ∨ (off + k) % BSIZE = 0
  stop : k = n ∧ extra = 0 ∨
    k + extra < n ∧ dst.source.byte (k + extra) = none ∧ (off + k) % BSIZE + extra < BSIZE

theorem ReadOut.step {dst : Dst} {off n m k extra : Nat} (hm : m ≤ n) (hend : m = n ∨ (off + m) % BSIZE = 0)
    (hall : ∀ j, j < m → (dst.source.byte j).isSome) (h : ReadOut (dst.add m) (off + m) (n - m) k extra) :
    ReadOut dst off n (m + k) extra where
  there j hj := by
    by_cases hlt : j < m
    · exact hall j hlt
    · have hbyte := h.there (j - m) (by omega)
      rwa [Dst.source_add, Src.byte_add, Nat.add_sub_cancel' (Nat.le_of_not_lt hlt)] at hbyte
  whole := by
    rw [← Nat.add_assoc]
    rcases h.whole with rfl | hk | hk
    · exact hend.elim (fun h => Or.inr (Or.inl (by omega))) fun h => Or.inr (Or.inr h)
    · exact Or.inr (Or.inl (by omega))
    · exact Or.inr (Or.inr hk)
  stop := by
    rcases h.stop with ⟨hk, hextra⟩ | ⟨hlt, hbyte, hin⟩
    · exact Or.inl ⟨by omega, hextra⟩
    · rw [Dst.source_add, Src.byte_add, ← Nat.add_assoc] at hbyte
      exact Or.inr ⟨by omega, hbyte, by rwa [← Nat.add_assoc]⟩

variable (more p sb) in
/-- The loop of `readi`, where all blocks are there. -/
theorem run_readiFrom [DecidableEq P] (howner : ∀ b, s.owner b = none) (hmapped : (s.mem ip).Mapped (s.blocks own ip)) (n : Nat) :
    ∀ (fuel tot off : Nat) (dst : Dst) (acc : List UInt8), dst.source.Ok → n - tot ≤ fuel →
      (∀ i, off ≤ i → i < off + (n - tot) → i / BSIZE < MAXFILE ∧
        (s.mem ip).slot (s.blocks own ip) (fileSlot (i / BSIZE)) ≠ 0) →
      ∃ k extra, ReadOut dst off (n - tot) k extra ∧ (machine more).run p (readiFrom sb ip n fuel dst tot off acc) s =
          .ok (acc ++ (s.mem ip).fileBytes (s.blocks own ip) off k,
            (s.mem ip).fileBytes (s.blocks own ip) (off + k) extra) s := by
  have hnil : ∀ off, (s.mem ip).fileBytes (s.blocks own ip) off 0 = [] := fun _ => rfl
  have hdone : ∀ {dst off acc} {j : Nat}, j = 0 → ∃ k extra, ReadOut dst off j k extra ∧
      (machine more).run p (pure (acc, [])) s = .ok (acc ++ (s.mem ip).fileBytes (s.blocks own ip) off k,
        (s.mem ip).fileBytes (s.blocks own ip) (off + k) extra) s := by
    rintro dst off acc _ rfl
    refine ⟨0, 0, ⟨nofun, Or.inl rfl, Or.inl ⟨rfl, rfl⟩⟩, ?_⟩
    rw [hnil, hnil, List.append_nil]
    rfl
  intro fuel
  induction fuel with
  | zero => exact fun _ _ _ _ _ hfuel _ => hdone (by omega)
  | succ fuel ih =>
    intro tot off dst acc hok hfuel hall
    rw [readiFrom]
    split
    · rename_i hlt
      obtain ⟨hbn, hslot⟩ := hall off (le_refl _) (by omega)
      obtain ⟨-, hdata⟩ := data_blocks hmapped hbn hslot
      rw [run_bind_ok (run_bmap_mapped howner hmapped hbn hslot), run_bread (howner _), run_bdata]
      have hmod : off % BSIZE < BSIZE := Nat.mod_lt _ (by decide)
      have hle : min (n - tot) (BSIZE - off % BSIZE) ≤ n - tot := Nat.min_le_left ..
      have hle' : min (n - tot) (BSIZE - off % BSIZE) ≤ BSIZE - off % BSIZE := Nat.min_le_right ..
      have hpos : 0 < min (n - tot) (BSIZE - off % BSIZE) := by omega
      have hend : min (n - tot) (BSIZE - off % BSIZE) = n - tot ∨
          (off + min (n - tot) (BSIZE - off % BSIZE)) % BSIZE = 0 := by
        show min (n - tot) (1024 - off % 1024) = n - tot ∨ (off + min (n - tot) (1024 - off % 1024)) % 1024 = 0
        omega
      dsimp only
      generalize min (n - tot) (BSIZE - off % BSIZE) = m at hle hle' hpos hend
      obtain ⟨hstored, hthere, hstop⟩ := Dst.stored_spec hok m
      have hbytes := fileBytes_of_data hdata (show off % BSIZE + m ≤ BSIZE by omega)
      rw [val_slot, disk_setOwner, ← hbytes]
      split
      · rename_i hcopy
        rw [eitherCopyout, beq_iff_eq] at hcopy
        rw [run_brelse (update_self ..), setOwner_setOwner _ (howner _)]
        obtain ⟨k, extra, hout, hrun⟩ := ih (tot + m) (off + m) (dst.add m)
          (acc ++ (s.mem ip).fileBytes (s.blocks own ip) off m) (by rw [Dst.source_add]; exact Src.ok_add ..) (by omega)
          fun i hi hi' => hall i (by omega) (by omega)
        rw [List.append_assoc, fileBytes_append, Nat.add_assoc] at hrun
        rw [← Nat.sub_sub] at hout
        exact ⟨m + k, extra, hout.step hle hend (hcopy ▸ hthere), hrun⟩
      · rename_i hcopy
        rw [eitherCopyout, beq_iff_eq] at hcopy
        rw [run_brelse (update_self ..), setOwner_setOwner _ (howner _)]
        have htake : ((s.mem ip).fileBytes (s.blocks own ip) off m).take (dst.stored m) =
            (s.mem ip).fileBytes (s.blocks own ip) off (dst.stored m) := by
          rw [Dinode.fileBytes, ← List.map_take, List.take_range, Nat.min_eq_left hstored]
          rfl
        refine ⟨0, dst.stored m, ⟨by rwa [Nat.zero_add], Or.inl rfl, Or.inr ⟨by omega, ?_, ?_⟩⟩, ?_⟩
        · rw [Nat.zero_add]
          exact hstop (by omega)
        · show (off + 0) % BSIZE + _ < BSIZE
          rw [Nat.add_zero]
          omega
        · rw [htake, hnil, List.append_nil]
          rfl
    · exact hdone (by omega)

theorem run_readi [DecidableEq P] (howner : ∀ b, s.owner b = none) (hmapped : (s.mem ip).Mapped (s.blocks own ip))
    (hfull : ∀ bn, bn * BSIZE < (s.mem ip).size.val → bn < MAXFILE ∧
      (s.mem ip).slot (s.blocks own ip) (fileSlot bn) ≠ 0) {off n : Nat} (h : off + n ≤ (s.mem ip).size.val) :
    (machine more).run p (readi sb ip .kernel off n) s = .ok ((s.mem ip).fileBytes (s.blocks own ip) off n) s := by
  have hlt : (s.mem ip).size.val < 4294967296 := (s.mem ip).size.isLt
  have hok : ¬(off > (s.icache.slot ip).inode.size.val ∨ (off + n) % 2 ^ 32 < off) := by
    have hmod : (off + n) % 4294967296 = off + n := Nat.mod_eq_of_lt (by omega)
    show ¬(off > (s.mem ip).size.val ∨ (off + n) % 4294967296 < off)
    omega
  have hcut : ¬off + n > (s.icache.slot ip).inode.size.val := Nat.not_lt.2 h
  obtain ⟨k, extra, hout, hrun⟩ := run_readiFrom more p sb howner hmapped n n 0 off .kernel [] trivial
    (by omega) fun i hi hi' => hfull _ (Nat.lt_of_le_of_lt (Nat.div_mul_le_self i BSIZE) (by omega))
  obtain ⟨rfl, rfl⟩ : k = n ∧ extra = 0 := hout.stop.elim id fun hno => nomatch hno.2.1
  unfold readi readiStored
  rw [bind_assoc, run_iload, if_neg hok, if_neg hcut, run_bind_ok hrun]
  rfl

/-! ### Changes of a locked inode -/

section Locked

variable (h : Alone sb p own s) (hlock : (s.icache.slot ip).lock = some p)
include h hlock

/-- A store to a block of the inode. -/
theorem Alone.write {b : Nat} (hb : own b = some (s.inum ip)) (d : Block) :
    Alone sb p own (s.setDisk b d) ∧ Works sb ip own own s (s.setDisk b d) ∧
      (s.setDisk b d).blocks own ip = update (s.blocks own ip) b (some d) ∧
      sb.free (s.setDisk b d).disk = sb.free s.disk := by
  have hheld := held_of_lock sb own hlock
  have hsome : (s.blocks own ip b).isSome := (isSome_content _).2 hb
  have hdata := h.disk.data b (by rw [hb]; rfl)
  obtain ⟨hothers, hdisk⟩ := h.disk.write hheld h.ok (d := d) hsome
  rw [setDisk_eq_work s ip]
  obtain ⟨halone, hworks⟩ := h.work hlock hdisk rfl hothers (s.mem ip)
  refine ⟨halone, hworks, ?_, free_congr fun x hx =>
    used_update_of_ne (hdata.ne_bblock hx)⟩
  rw [FsState.blocks, inum_work, disk_work]
  exact content_update_disk hb

/-- The inode on disk after `iupdate`. -/
def saved (s : FsState P X) (sb : Superblock) (ip : Fin NINODE) : FsState P X :=
  s.setDisk (sb.iblock (s.inum ip)) ((s.disk (sb.iblock (s.inum ip))).putInode (s.inum ip % IPB) (s.mem ip))

omit h hlock in
theorem run_iupdate [DecidableEq P] (howner : ∀ b, s.owner b = none) (hop : s.op p = true) :
    (machine more).run p (iupdate sb ip) s = .ok () (s.saved sb ip) := by
  unfold iupdate
  rw [run_iload, run_bread (howner _), run_bdata]
  exact run_modify_last (howner _) hop

theorem Alone.saved (htype : (s.mem ip).type ≠ 0) :
    Alone sb p own (s.saved sb ip) ∧ Works sb ip own own s (s.saved sb ip) ∧
      sb.dinode (s.saved sb ip).disk (s.inum ip) = s.mem ip ∧
      (s.saved sb ip).blocks own ip = s.blocks own ip ∧ sb.free (s.saved sb ip).disk = sb.free s.disk := by
  have hheld := held_of_lock sb own hlock
  have hdisk := h.disk.iupdate hheld h.ok htype
  have hothers := h.disk.inode_others hheld h.ok (s.mem ip)
  obtain ⟨hused, hcontent⟩ := h.disk.inode_store h.ok (h.inum_lt hlock) (s.mem ip)
  rw [FsState.saved, setDisk_eq_work s ip]
  obtain ⟨halone, hworks⟩ := h.work hlock hdisk rfl hothers (s.mem ip)
  refine ⟨halone, hworks, ?_, ?_, free_congr fun x _ => hused x⟩
  · rw [disk_work, dinode_putInode, if_pos rfl]
  · rw [FsState.blocks, inum_work, disk_work]
    exact hcontent _

end Locked

/-! ### Writes -/

/-- What a write of `len` bytes from `off` on has done when it ends at offset `stop`: it has stored `bytes`. -/
structure Wrote (sb : Superblock) (p : P) (ip : Fin NINODE) (S : Finset Nat) (src : Src) (off len : Nat)
    (own own' : Nat → Option Nat) (s t : FsState P X) (stop : Nat) (bytes : List UInt8) : Prop where
  alone : Alone sb p own' t
  works : Works sb ip own own' s t
  fields : { t.mem ip with addrs := (s.mem ip).addrs } = s.mem ip
  mapped : (t.mem ip).Mapped (t.blocks own' ip)
  slots : ∀ j, j < NSLOT → (s.mem ip).slot (s.blocks own ip) j ≠ 0 →
    (t.mem ip).slot (t.blocks own' ip) j = (s.mem ip).slot (s.blocks own ip) j
  has : ∀ i, off ≤ i → i < stop → i / BSIZE < MAXFILE ∧
    (t.mem ip).slot (t.blocks own' ip) (fileSlot (i / BSIZE)) ≠ 0
  content : ∀ i, i < MAXFILE * BSIZE → (t.mem ip).fileByte (t.blocks own' ip) i =
    if off ≤ i ∧ i < off + bytes.length then bytes.getD (i - off) 0 else (s.mem ip).fileByte (s.blocks own ip) i
  copied : Copied src.byte len bytes
  lower : off ≤ stop
  upper : stop ≤ off + bytes.length
  done : bytes.length = len → stop = off + len
  room : sb.free s.disk + (t.mem ip).missing (t.blocks own' ip) S ≤
    sb.free t.disk + (s.mem ip).missing (s.blocks own ip) S

namespace Wrote

variable {S : Finset Nat} {src : Src} {off len k stop stop' : Nat} {own' own'' : Nat → Option Nat}
  {t u : FsState P X} {bytes bytes' : List UInt8}

theorem nil (h : Alone sb p own s) (hmapped : (s.mem ip).Mapped (s.blocks own ip)) :
    Wrote sb p ip S src off 0 own own s s off [] where
  alone := h
  works := Works.refl ..
  fields := rfl
  mapped := hmapped
  slots _ _ _ := rfl
  has i hi hi' := absurd hi' (Nat.not_lt.2 hi)
  content i hi := by
    rw [if_neg]
    simp only [List.length_nil]
    omega
  copied := Copied.nil
  lower := le_refl _
  upper := Nat.le_add_right ..
  done _ := rfl
  room := le_refl _

/-- A write goes on where a first one ended. -/
theorem append (h : Wrote sb p ip S src off k own own' s t (off + k) bytes) (hk : bytes.length = k) (hle : k ≤ len)
    (h' : Wrote sb p ip S (src.add k) (off + k) (len - k) own' own'' t u stop bytes') :
    Wrote sb p ip S src off len own own'' s u stop (bytes ++ bytes') where
  alone := h'.alone
  works := h.works.trans h'.works
  fields := by
    rw [← h.fields, ← h'.fields]
  mapped := h'.mapped
  slots j hj hne := by
    have heq := h.slots j hj hne
    rw [h'.slots j hj (by rw [heq]; exact hne), heq]
  has i hi hi' := by
    by_cases hlt : i < off + k
    · obtain ⟨hbn, hne⟩ := h.has i hi hlt
      rw [h'.slots _ (fileSlot_lt hbn) hne]
      exact ⟨hbn, hne⟩
    · exact h'.has i (by omega) hi'
  content i hi := by
    rw [h'.content i hi, h.content i hi, List.length_append, hk]
    by_cases hlt : i < off + k
    · rw [if_neg (by omega)]
      by_cases hoff : off ≤ i
      · rw [if_pos (by omega), if_pos (by omega), List.getD_append _ _ _ _ (by omega)]
      · rw [if_neg (by omega), if_neg (by omega)]
    · by_cases hin : i < off + k + bytes'.length
      · rw [if_pos (by omega), if_pos (by omega), List.getD_append_right _ _ _ _ (by omega), hk,
          show i - (off + k) = i - off - k by omega]
      · rw [if_neg (by omega), if_neg (by omega), if_neg (by omega)]
  copied := h.copied.append hk h'.copied hle fun j _ => src.byte_add k j
  lower := Nat.le_trans h.lower h'.lower
  upper := by
    have := h'.upper
    rw [List.length_append]
    omega
  done hlen := by
    rw [List.length_append] at hlen
    rw [h'.done (by omega)]
    omega
  room := by
    have := h.room
    have := h'.room
    omega

/-- A write that has stopped is one of any more bytes. -/
theorem stopped (h : Wrote sb p ip S src off k own own' s t stop bytes) (hk : bytes.length ≠ k) (hle : k ≤ len) :
    Wrote sb p ip S src off len own own' s t stop bytes where
  alone := h.alone
  works := h.works
  fields := h.fields
  mapped := h.mapped
  slots := h.slots
  has := h.has
  content := h.content
  copied := ⟨Nat.le_trans h.copied.le hle, h.copied.read, fun _ => h.copied.stop (Nat.lt_of_le_of_ne h.copied.le hk)⟩
  lower := h.lower
  upper := h.upper
  done hlen := by
    have := h.copied.le
    omega
  room := h.room

/-- The bytes for one block, which `bmap` has found or made. -/
theorem piece (hg : Grown sb p ip own own' s t) (hlock : (t.icache.slot ip).lock = some p)
    (hbn : off / BSIZE < MAXFILE) (hne : (t.mem ip).slot (t.blocks own' ip) (fileSlot (off / BSIZE)) ≠ 0)
    (hfree : sb.free t.disk + (s.mem ip).need (s.blocks own ip) (off / BSIZE) = sb.free s.disk)
    (hk : off % BSIZE + k ≤ BSIZE) (hpos : 0 < k) (hS : Dinode.Covers S off k) (hcopied : Copied src.byte k bytes)
    (hstop : stop = off ∧ bytes.length ≠ k ∨ stop = off + k ∧ bytes.length = k) :
    Wrote sb p ip S src off k own own' s (t.setDisk ((t.mem ip).slot (t.blocks own' ip) (fileSlot (off / BSIZE)))
      ((t.disk ((t.mem ip).slot (t.blocks own' ip) (fileSlot (off / BSIZE)))).copy (off % BSIZE) bytes)) stop bytes := by
  have hmapped := hg.grows.mapped
  have hle := hcopied.le
  obtain ⟨hown, hdata⟩ := data_blocks hmapped hbn hne
  obtain ⟨halone, hworks, hblocks, hfree'⟩ := hg.alone.write hlock hown
    ((t.disk ((t.mem ip).slot (t.blocks own' ip) (fileSlot (off / BSIZE)))).copy (off % BSIZE) bytes)
  have hind : (t.mem ip).slot (t.blocks own' ip) (fileSlot (off / BSIZE)) ≠ (t.mem ip).addr NDIRECT := by
    intro heq
    rw [← slot_of_le (v := t.mem ip) (m := t.blocks own' ip) (le_refl NDIRECT)] at heq
    exact fileSlot_ne _ (hmapped.inj _ _ (fileSlot_lt hbn) (by decide) hne heq)
  generalize hd : (t.disk ((t.mem ip).slot (t.blocks own' ip) (fileSlot (off / BSIZE)))).copy (off % BSIZE) bytes = d
    at halone hworks hblocks hfree'
  generalize hu : t.setDisk ((t.mem ip).slot (t.blocks own' ip) (fileSlot (off / BSIZE))) d = u
    at halone hworks hblocks hfree'
  have hmem : u.mem ip = t.mem ip := by
    rw [← hu]
    rfl
  have hslot : ∀ j, (u.mem ip).slot (u.blocks own' ip) j = (t.mem ip).slot (t.blocks own' ip) j := by
    intro j
    rw [hblocks, hmem]
    exact slot_update hind j
  have hblock : ∀ i, off ≤ i → i < off + k → i / BSIZE = off / BSIZE := by
    intro i hi hi'
    have hk' : off % 1024 + k ≤ 1024 := hk
    show i / 1024 = off / 1024
    omega
  refine ⟨halone, hg.works.trans hworks, ?_, ?_, fun j hj hj' => ?_, fun i hi hi' => ?_, fun i hi => ?_, hcopied,
    ?_, ?_, ?_, ?_⟩
  · rw [hmem]
    exact hg.grows.fields
  · rw [hblocks, hmem]
    exact hmapped.store hdata hind
  · rw [hslot, hg.grows.slots j hj hj']
  · rw [hslot, hblock i hi (by omega)]
    exact ⟨hbn, hne⟩
  · rw [hblocks, hmem, ← hd, fileByte_copy hmapped hbn hne hdata (by omega) hi, hg.grows.fileByte hi]
  · omega
  · omega
  · omega
  · have hmiss : (u.mem ip).missing (u.blocks own' ip) S = (t.mem ip).missing (t.blocks own' ip) S :=
      missing_congr fun j _ => hslot j
    obtain ⟨hbnS, hindS⟩ := hS.slot off (le_refl _) (by omega)
    have hgrow := missing_grow hbnS hindS hg.grows hS.lt hne
    rw [hmiss, hfree']
    omega

end Wrote

theorem holds_writeiFrom [DecidableEq P] {S : Finset Nat} (n : Nat) : ∀ (fuel : Nat) (src : Src) (tot off : Nat)
    {own : Nat → Option Nat} {s : FsState P X}, src.Ok → n - tot ≤ fuel → off + (n - tot) ≤ MAXFILE * BSIZE →
    Dinode.Covers S off (n - tot) → Alone sb p own s → (s.icache.slot ip).lock = some p → s.op p = true →
    (s.mem ip).Mapped (s.blocks own ip) →
    (sb.free s.disk < (s.mem ip).missing (s.blocks own ip) S → may "balloc: out of blocks") →
    ((machine more).run p (writeiFrom sb ip n fuel src tot off) s).Holds may fun stop t => ∃ own' bytes,
      Wrote sb p ip S src off (n - tot) own own' s t stop bytes := by
  intro fuel
  induction fuel with
  | zero =>
    intro src tot off own s _ hfuel _ _ h _ _ hmapped _
    have hzero : n - tot = 0 := by omega
    rw [hzero]
    exact ⟨own, [], Wrote.nil h hmapped⟩
  | succ fuel ih =>
    intro src tot off own s hsrc hfuel hmax hS h hlock hop hmapped hmay
    rw [writeiFrom]
    split
    · rename_i hlt
      have hmod : off % BSIZE < BSIZE := Nat.mod_lt _ (by decide)
      have hbn : off / BSIZE < MAXFILE := Nat.div_lt_of_lt_mul (by rw [Nat.mul_comm]; omega)
      have hle : min (n - tot) (BSIZE - off % BSIZE) ≤ n - tot := Nat.min_le_left ..
      have hle' : min (n - tot) (BSIZE - off % BSIZE) ≤ BSIZE - off % BSIZE := Nat.min_le_right ..
      have hpos : 0 < min (n - tot) (BSIZE - off % BSIZE) := by omega
      dsimp only
      generalize min (n - tot) (BSIZE - off % BSIZE) = k at hle hle' hpos
      obtain ⟨hbnS, hindS⟩ := hS.slot off (le_refl _) (by omega)
      have hneed : (s.mem ip).need (s.blocks own ip) (off / BSIZE) ≤ (s.mem ip).missing (s.blocks own ip) S :=
        need_le_missing hbnS hindS
      refine holds_seq (holds_bmap h hlock hop hmapped hbn fun hfull => hmay (by omega)) ?_
      rintro a t ⟨own', hg, ha, hne, hfree⟩
      have hlock' : (t.icache.slot ip).lock = some p := by rw [hg.works.lock, hlock]
      have hop' : t.op p = true := by rw [hg.works.op, hop]
      rw [run_bread (hg.alone.owner _), run_bcopyin, disk_setOwner]
      obtain ⟨hcopied, hok⟩ := eitherCopyin_spec hsrc k
      have hpiece : ∀ stop, (stop = off ∧ (eitherCopyin src k).1.length ≠ k ∨
          stop = off + k ∧ (eitherCopyin src k).1.length = k) → Wrote sb p ip S src off k own own' s
          (t.setDisk a.val ((t.disk a.val).copy (off % BSIZE) (eitherCopyin src k).1)) stop (eitherCopyin src k).1 := by
        intro stop hstop
        rw [ha] at hne ⊢
        exact Wrote.piece hg hlock' hbn hne hfree (by omega) hpos
          ⟨hS.lt, fun i hi hi' => hS.slot i hi (by omega)⟩ hcopied hstop
      have howner : ((t.setOwner a.val (some p)).setDisk a.val
          ((t.disk a.val).copy (off % BSIZE) (eitherCopyin src k).1)).owner a.val = some p := update_self ..
      split
      · rename_i hcopy
        have hlen := hok.1 hcopy
        have hw := hpiece (off + k) (Or.inr ⟨rfl, hlen⟩)
        have hop'' : ((t.setOwner a.val (some p)).setDisk a.val
          ((t.disk a.val).copy (off % BSIZE) (eitherCopyin src k).1)).op p = true := hop'
        rw [run_logWrite hop'', run_brelse howner, setOwner_setDisk_setOwner _ _ (hg.alone.owner _)]
        have hsub : n - (tot + k) = n - tot - k := by omega
        have hroom := hw.room
        refine (ih (src.add k) (tot + k) (off + k) (src.ok_add k) (by omega) (by omega)
          ⟨hS.lt, fun i hi hi' => hS.slot i (by omega) (by omega)⟩ hw.alone
          (by rw [hw.works.lock, hlock]) (by rw [hw.works.op, hop]) hw.mapped fun hfull => hmay (by omega)).mono ?_
        rintro stop u ⟨own'', bytes, hw'⟩
        rw [hsub] at hw'
        exact ⟨own'', _, hw.append hlen hle hw'⟩
      · rename_i hcopy
        have hlen : (eitherCopyin src k).1.length ≠ k := fun heq => hcopy (hok.2 heq)
        have hw := hpiece off (Or.inl ⟨rfl, hlen⟩)
        rw [run_brelse howner, setOwner_setDisk_setOwner _ _ (hg.alone.owner _)]
        exact ⟨own', _, hw.stopped hlen hle⟩
    · rename_i hge
      have hzero : n - tot = 0 := by omega
      rw [hzero]
      exact ⟨own, [], Wrote.nil h hmapped⟩

/-- What `writei` has done: it has stored `bytes`, up to `stop` for good, and the inode is on disk. -/
structure Written (sb : Superblock) (p : P) (ip : Fin NINODE) (S : Finset Nat) (src : Src) (off len : Nat)
    (own own' : Nat → Option Nat) (s t : FsState P X) (stop : Nat) (bytes : List UInt8) : Prop where
  alone : Alone sb p own' t
  works : Works sb ip own own' s t
  clean : t.mem ip = sb.dinode t.disk (s.inum ip)
  fields : { t.mem ip with addrs := (s.mem ip).addrs, size := (s.mem ip).size } = s.mem ip
  size : (t.mem ip).size.val = max (s.mem ip).size.val stop
  mapped : (t.mem ip).Mapped (t.blocks own' ip)
  full : ∀ bn, bn * BSIZE < (t.mem ip).size.val → bn < MAXFILE ∧
    (t.mem ip).slot (t.blocks own' ip) (fileSlot bn) ≠ 0
  content : ∀ i, i < MAXFILE * BSIZE → (t.mem ip).fileByte (t.blocks own' ip) i =
    if off ≤ i ∧ i < off + bytes.length then bytes.getD (i - off) 0 else (s.mem ip).fileByte (s.blocks own ip) i
  copied : Copied src.byte len bytes
  lower : off ≤ stop
  upper : stop ≤ off + bytes.length
  done : bytes.length = len → stop = off + len
  room : sb.free s.disk + (t.mem ip).missing (t.blocks own' ip) S ≤
    sb.free t.disk + (s.mem ip).missing (s.blocks own ip) S

/-- `writei` refuses. -/
theorem run_writei_refused [DecidableEq P] {src : Src} {off n : Nat}
    (h : (off > (s.mem ip).size.val ∨ (off + n) % 2 ^ 32 < off) ∨ off + n > MAXFILE * BSIZE) :
    (machine more).run p (writei sb ip src off n) s = .ok (-1 : Int) s := by
  unfold writei
  rw [run_iload]
  by_cases hrange : off > (s.icache.slot ip).inode.size.val ∨ (off + n) % 2 ^ 32 < off
  · rw [if_pos hrange]
    rfl
  · have hmax : off + n > MAXFILE * BSIZE := h.resolve_left hrange
    rw [if_neg hrange, if_pos hmax]
    rfl

/-- The size and the inode on disk at the end of a write. -/
theorem Wrote.written {S : Finset Nat} {src : Src} {off len stop : Nat} {own' : Nat → Option Nat} {t : FsState P X}
    {bytes : List UInt8} (h : Wrote sb p ip S src off len own own' s t stop bytes)
    (hlock : (s.icache.slot ip).lock = some p) (htype : (s.mem ip).type ≠ 0)
    (hfull : ∀ bn, bn * BSIZE < (s.mem ip).size.val → bn < MAXFILE ∧
      (s.mem ip).slot (s.blocks own ip) (fileSlot bn) ≠ 0)
    (hoff : off ≤ (s.mem ip).size.val) {v : Dinode} (hv : { v with size := (t.mem ip).size } = t.mem ip)
    (hsize : v.size.val = max (s.mem ip).size.val stop) :
    Written sb p ip S src off len own own' s ((t.work ip t.disk v).saved sb ip) stop bytes := by
  have hlock' : (t.icache.slot ip).lock = some p := by rw [h.works.lock, hlock]
  obtain ⟨halone, hworks⟩ := h.alone.work_mem hlock' v
  have hlock'' : ((t.work ip t.disk v).icache.slot ip).lock = some p := by rw [lock_work, hlock']
  have hmem : (t.work ip t.disk v).mem ip = v := mem_work ..
  have haddrs : v.addrs = (t.mem ip).addrs := by rw [← hv]
  have htype' : v.type = (s.mem ip).type := by
    have h₁ : v.type = (t.mem ip).type := by rw [← hv]
    have h₂ : (t.mem ip).type = (s.mem ip).type := by rw [← h.fields]
    rw [h₁, h₂]
  obtain ⟨halone', hworks', hdisk, hblocks, hfree⟩ := halone.saved hlock'' (by rw [hmem, htype']; exact htype)
  rw [hmem, inum_work] at hdisk
  generalize hu : (t.work ip t.disk v).saved sb ip = u at halone' hworks' hdisk hblocks hfree
  have hmem' : u.mem ip = v := by
    rw [← hu]
    exact hmem
  have hblocks' : u.blocks own' ip = t.blocks own' ip := by
    rw [hblocks, FsState.blocks, inum_work, disk_work]
    rfl
  have hslot : ∀ j, v.slot (t.blocks own' ip) j = (t.mem ip).slot (t.blocks own' ip) j := by
    intro j
    unfold Dinode.slot Dinode.addr
    rw [haddrs]
  have hdata : ∀ bn, v.data (t.blocks own' ip) bn = (t.mem ip).data (t.blocks own' ip) bn := by
    intro bn
    rw [Dinode.data, Dinode.data, hslot]
  refine ⟨halone', (h.works.trans hworks).trans hworks', ?_, ?_, by rw [hmem', hsize], ?_, fun bn hbn => ?_,
    fun i hi => ?_, h.copied, h.lower, h.upper, h.done, ?_⟩
  · rw [hmem', ← h.works.inum, hdisk]
  · have hvt : { v with addrs := (s.mem ip).addrs, size := (s.mem ip).size } =
        { t.mem ip with addrs := (s.mem ip).addrs, size := (s.mem ip).size } := by rw [← hv]
    have hts : { t.mem ip with addrs := (s.mem ip).addrs, size := (s.mem ip).size } = s.mem ip := by
      conv_rhs => rw [← h.fields]
      rw [← h.fields]
    rw [hmem', hvt, hts]
  · rw [hmem', hblocks']
    refine ⟨fun i j hi hj hne heq => ?_, fun b => ?_⟩
    · rw [hslot] at hne heq
      rw [hslot] at heq
      exact h.mapped.inj i j hi hj hne heq
    · simp only [hslot]
      exact h.mapped.cover b
  · rw [hmem', hblocks', hslot]
    rw [hmem', hsize] at hbn
    by_cases hlt : bn * BSIZE < (s.mem ip).size.val
    · obtain ⟨hmax, hne⟩ := hfull bn hlt
      rw [h.slots _ (fileSlot_lt hmax) hne]
      exact ⟨hmax, hne⟩
    · -- the first byte of the block was written
      have hhas := h.has (bn * BSIZE) (by omega) (by omega)
      rw [Nat.mul_div_cancel _ (by decide)] at hhas
      exact hhas
  · rw [hmem', hblocks', fileByte_congr (hdata _), h.content i hi]
  · have hmiss : (u.mem ip).missing (u.blocks own' ip) S = (t.mem ip).missing (t.blocks own' ip) S := by
      rw [hmem', hblocks']
      exact missing_congr fun j _ => hslot j
    have hroom := h.room
    rw [hmiss, hfree]
    exact hroom

theorem holds_writei [DecidableEq P] {S : Finset Nat} {src : Src} {off n : Nat} (hsrc : src.Ok) (h : Alone sb p own s)
    (hlock : (s.icache.slot ip).lock = some p) (hop : s.op p = true) (htype : (s.mem ip).type ≠ 0)
    (hmapped : (s.mem ip).Mapped (s.blocks own ip)) (hfull : ∀ bn, bn * BSIZE < (s.mem ip).size.val → bn < MAXFILE ∧
      (s.mem ip).slot (s.blocks own ip) (fileSlot bn) ≠ 0)
    (hoff : off ≤ (s.mem ip).size.val) (hmax : off + n ≤ MAXFILE * BSIZE) (hn : 0 < n) (hS : Dinode.Covers S off n)
    (hmay : sb.free s.disk < (s.mem ip).missing (s.blocks own ip) S → may "balloc: out of blocks") :
    ((machine more).run p (writei sb ip src off n) s).Holds may fun r t => r = (n : Int) ∧ ∃ own' stop bytes,
      Written sb p ip S src off n own own' s t stop bytes := by
  have hmax' : off + n ≤ 274432 := hmax
  have hrange : ¬(off > (s.icache.slot ip).inode.size.val ∨ (off + n) % 2 ^ 32 < off) := by
    have hmod : (off + n) % 4294967296 = off + n := Nat.mod_eq_of_lt (by omega)
    show ¬(off > (s.mem ip).size.val ∨ (off + n) % 4294967296 < off)
    omega
  unfold writei
  rw [run_iload, if_neg hrange, if_neg (Nat.not_lt.2 hmax)]
  refine holds_seq (holds_writeiFrom n n src 0 off hsrc (by omega) hmax hS h hlock hop hmapped hmay) ?_
  rintro stop t ⟨own', bytes, hw⟩
  rw [Nat.sub_zero] at hw
  rw [if_pos hn, run_iload]
  have hsize : (t.mem ip).size = (s.mem ip).size := by rw [← hw.fields]
  have hle : stop ≤ 274432 := by
    have := hw.upper
    have := hw.copied.le
    omega
  have hop' : t.op p = true := by rw [hw.works.op, hop]
  by_cases hgt : stop > (t.icache.slot ip).inode.size.val
  · have hgt' : stop > (t.mem ip).size.val := hgt
    have hval : (Uint.of stop).val = stop := Uint.val_of (by omega)
    have hstate : ((machine more).run p (do
        istore ip { (t.icache.slot ip).inode.toDinode with size := Uint.of stop }
        iupdate sb ip
        pure (n : Int)) t) = .ok (n : Int) ((t.work ip t.disk { t.mem ip with size := Uint.of stop }).saved sb ip) := by
      rw [run_istore]
      exact run_bind_ok (run_iupdate (s := t.work ip t.disk _) hw.alone.owner hop')
    rw [if_pos hgt, hstate]
    refine ⟨rfl, own', stop, bytes, hw.written hlock htype hfull hoff rfl ?_⟩
    show (Uint.of stop).val = _
    rw [hval]
    rw [hsize] at hgt'
    omega
  · have hgt' : ¬stop > (t.mem ip).size.val := hgt
    rw [if_neg hgt, pure_bind, run_bind_ok (run_iupdate hw.alone.owner hop')]
    refine ⟨rfl, own', stop, bytes, ?_⟩
    have hw' := hw.written hlock htype hfull hoff (v := t.mem ip) rfl (by rw [hsize] at hgt' ⊢; omega)
    rw [work_self] at hw'
    exact hw'

end FsState

end Xv6
