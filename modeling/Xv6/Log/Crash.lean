import Xv6.Log.Code
import Xv6.Lib.Redo

/-! Crash atomicity of `commit` and `recover_from_log`. Both run over a disk seen through the buffer
cache: `view` is the content `bread` gives for a block, `writes` records the single-block disk writes in
program order. A crash leaves the disk after some prefix of the writes and loses the rest. The argument
follows what the header on the disk says: it lists no block, and then recovery changes nothing outside
the log; or it lists the transaction, whose copies in the log are all in place, and then recovery
installs them over whatever mixture the home blocks hold. -/

namespace Xv6

open Lib Function List Machine

def noExt : Sig := ⟨Empty, Empty.elim⟩

/-- A disk, its content as the buffer cache presents it, `struct log`, and the disk writes so far. -/
structure Store where
  disk : Nat → Block
  view : Nat → Block
  log : Log
  writes : List (Nat × Block)

namespace Store

def onLog {α : Type} (f : Log → Outcome Log α) (s : Store) : Outcome Store α :=
  (f s.log).mapState fun l => { s with log := l }

/-- A buffer pointer is the number of its block here. -/
def exec (size : Nat) : (o : BioOp Nat noExt) → Store → Outcome Store ((Bio Nat noExt).Ret o)
  | .bread _ blockno, s => .ok blockno s
  | .bdata b, s => .ok (s.view b) s
  | .bstore b d, s => .ok () { s with view := update s.view b d }
  | .bcopyin b off src n, s =>
      let r := eitherCopyin src n
      .ok r.2 { s with view := update s.view b ((s.view b).copy off r.1) }
  | .bwrite b, s => .ok () { s with
      disk := update s.disk b (s.view b), writes := s.writes ++ [(b, s.view b)] }
  | .brelse _, s => .ok () s
  | .bunpin _, s => .ok () s
  | .logCheck _, s => s.onLog (Log.check size)
  | .logAppend b, s => (match s.log.append b with
      | .ok _ l => .ok () { s with log := l }
      | .block => .block
      | .panic msg => .panic msg)
  | .logEnter, s => s.onLog Log.enter
  | .logLeave, s => s.onLog Log.leave
  | .logDone, s => s.onLog Log.done
  | .getHead, s => .ok s.log.head s
  | .setHead blocks, s => s.onLog (Log.setHead blocks)

def machine (size : Nat) : Machine (Bio Nat noExt) Unit Store := ⟨fun _ => exec size⟩

/-- The store after some disk writes, each of the content just stored in the block. -/
def written (s : Store) (ws : List (Nat × Block)) : Store :=
  { s with disk := applyWrites s.disk ws, view := applyWrites s.view ws, writes := s.writes ++ ws }

theorem written_append (s : Store) (us ws : List (Nat × Block)) : (s.written us).written ws = s.written (us ++ ws) := by
  simp [written, applyWrites_append]

/-- A machine that has just booted from a disk. -/
def boot (disk : Nat → Block) : Store := ⟨disk, disk, ⟨0, false, []⟩, []⟩

/-! ### What the functions of the log write -/

variable (start size : Nat)

section Run

variable {α : Type} {size : Nat} (s : Store)

@[simp] theorem run_bread (dev b : Nat) (f : Nat → Prog (Bio Nat noExt) α) :
    (machine size).run () (Bio.bread dev b >>= f) s = (machine size).run () (f b) s := rfl

@[simp] theorem run_bdata (b : Nat) (f : Block → Prog (Bio Nat noExt) α) :
    (machine size).run () (Bio.bdata b >>= f) s = (machine size).run () (f (s.view b)) s := rfl

@[simp] theorem run_bstore (b : Nat) (d : Block) (f : Unit → Prog (Bio Nat noExt) α) :
    (machine size).run () (Bio.bstore b d >>= f) s =
      (machine size).run () (f ()) { s with view := update s.view b d } := rfl

@[simp] theorem run_bwrite (b : Nat) (f : Unit → Prog (Bio Nat noExt) α) :
    (machine size).run () (Bio.bwrite b >>= f) s = (machine size).run () (f ()) { s with
      disk := update s.disk b (s.view b), writes := s.writes ++ [(b, s.view b)] } := rfl

@[simp] theorem run_brelse (b : Nat) (f : Unit → Prog (Bio Nat noExt) α) :
    (machine size).run () (Bio.brelse b >>= f) s = (machine size).run () (f ()) s := rfl

@[simp] theorem run_brelse_last (b : Nat) : (machine size).run () (Bio.brelse b) s = .ok () s := rfl

@[simp] theorem run_bunpin (b : Nat) (f : Unit → Prog (Bio Nat noExt) α) :
    (machine size).run () (Bio.bunpin b >>= f) s = (machine size).run () (f ()) s := rfl

@[simp] theorem run_getHead (f : List Nat → Prog (Bio Nat noExt) α) :
    (machine size).run () (Bio.getHead >>= f) s = (machine size).run () (f s.log.head) s := rfl

theorem run_setHead {blocks : List Nat} (h : blocks.length ≤ LOGSIZE) (f : Unit → Prog (Bio Nat noExt) α) :
    (machine size).run () (Bio.setHead blocks >>= f) s =
      (machine size).run () (f ()) { s with log := { s.log with head := blocks } } := by
  refine run_call_ok (M := machine size) ?_
  simp [machine, exec, onLog, Log.setHead, h, Outcome.mapState]

end Run

/-- The disk writes of `write_log` for the blocks from index `i` on. -/
def logWrites (view : Nat → Block) : Nat → List Nat → List (Nat × Block)
  | _, [] => []
  | i, b :: bs => (start + i + 1, view b) :: logWrites view (i + 1) bs

/-- The disk writes of `install_trans` for the blocks from index `i` on. -/
def homeWrites (view : Nat → Block) : Nat → List Nat → List (Nat × Block)
  | _, [] => []
  | i, b :: bs => (b, view (start + i + 1)) :: homeWrites view (i + 1) bs

variable {bs : List Nat} {v u : Nat → Block} {d : Nat → Block}

theorem logWrites_congr {i : Nat} (h : ∀ b ∈ bs, v b = u b) : logWrites start v i bs = logWrites start u i bs := by
  induction bs generalizing i with
  | nil => rfl
  | cons b bs ih =>
    rw [logWrites, logWrites, h b mem_cons_self, ih fun c hc => h c (mem_cons_of_mem _ hc)]

theorem homeWrites_congr {i : Nat} (h : ∀ j, i ≤ j → j < i + bs.length → v (start + j + 1) = u (start + j + 1)) :
    homeWrites start v i bs = homeWrites start u i bs := by
  induction bs generalizing i with
  | nil => rfl
  | cons b bs ih =>
    rw [length_cons] at h
    rw [homeWrites, homeWrites, h i (Nat.le_refl _) (by omega), ih fun j hj hlt => h j (by omega) (by omega)]

variable {start}

theorem run_writeLogFrom (pre rest : List Nat) {fuel : Nat} {s : Store}
    (hhead : s.log.head = pre ++ rest) (hfuel : rest.length < fuel)
    (hout : ∀ b ∈ rest, ∀ j, j < (pre ++ rest).length → b ≠ start + j + 1) :
    (machine size).run () (writeLogFrom start fuel pre.length) s =
      .ok () (s.written (logWrites start s.view pre.length rest)) := by
  induction rest generalizing pre fuel s with
  | nil =>
    obtain ⟨fuel, rfl⟩ : ∃ f, fuel = f + 1 := ⟨fuel - 1, by simp at hfuel; omega⟩
    simp [writeLogFrom, hhead, logWrites, written, applyWrites, Machine.run]
  | cons b bs ih =>
    obtain ⟨fuel, rfl⟩ : ∃ f, fuel = f + 1 := ⟨fuel - 1, by simp at hfuel; omega⟩
    have hlt : pre.length < (pre ++ b :: bs).length := by simp
    have hget : (pre ++ b :: bs).getD pre.length 0 = b := by simp
    rw [writeLogFrom, run_getHead, hhead, if_pos hlt]
    simp only [run_bread, run_getHead, run_bdata, run_bstore, run_bwrite, run_brelse, hhead, hget, update_self]
    have hrest := @ih (pre ++ [b]) fuel (s.written [(start + pre.length + 1, s.view b)])
      (by simp [written, hhead]) (by simpa using hfuel)
      (fun c hc j hj => hout c (mem_cons_of_mem _ hc) j (by simpa using hj))
    rw [length_append, length_singleton, written_append] at hrest
    rw [logWrites]
    refine hrest.trans ?_
    rw [logWrites_congr start (u := s.view) fun c hc => ?_]
    · rfl
    · exact update_of_ne (hout c (mem_cons_of_mem _ hc) _ hlt) _ _

theorem run_installTransFrom (pre rest : List Nat) {fuel : Nat} {s : Store}
    (hhead : s.log.head = pre ++ rest) (hfuel : rest.length < fuel)
    (hout : ∀ b ∈ rest, ∀ j, j < (pre ++ rest).length → b ≠ start + j + 1) :
    (machine size).run () (installTransFrom start fuel pre.length) s =
      .ok () (s.written (homeWrites start s.view pre.length rest)) := by
  induction rest generalizing pre fuel s with
  | nil =>
    obtain ⟨fuel, rfl⟩ : ∃ f, fuel = f + 1 := ⟨fuel - 1, by simp at hfuel; omega⟩
    simp [installTransFrom, hhead, homeWrites, written, applyWrites, Machine.run]
  | cons b bs ih =>
    obtain ⟨fuel, rfl⟩ : ∃ f, fuel = f + 1 := ⟨fuel - 1, by simp at hfuel; omega⟩
    have hlt : pre.length < (pre ++ b :: bs).length := by simp
    have hget : (pre ++ b :: bs).getD pre.length 0 = b := by simp
    rw [installTransFrom, run_getHead, hhead, if_pos hlt]
    simp only [run_bread, run_getHead, run_bdata, run_bstore, run_bwrite, run_bunpin, run_brelse,
      hhead, hget, update_self]
    have hrest := @ih (pre ++ [b]) fuel (s.written [(b, s.view (start + pre.length + 1))])
      (by simp [written, hhead]) (by simpa using hfuel)
      (fun c hc j hj => hout c (mem_cons_of_mem _ hc) j (by simpa using hj))
    rw [length_append, length_singleton, written_append] at hrest
    rw [homeWrites]
    refine hrest.trans ?_
    rw [homeWrites_congr start (u := s.view) fun j _ hj => ?_]
    · rfl
    · refine update_of_ne (hout b mem_cons_self j ?_).symm _ _
      simp only [length_append, length_cons]
      omega

theorem run_writeHead (start : Nat) (s : Store) : (machine size).run () (writeHead start) s =
      .ok () (s.written [(start, putHead (s.view start) s.log.head)]) := by
  simp [writeHead, written, applyWrites]

theorem mem_logWrites {view : Nat → Block} : ∀ {i : Nat} {w : Nat × Block},
    w ∈ logWrites start view i bs → start + i < w.1 ∧ w.1 ≤ start + i + bs.length := by
  induction bs with
  | nil => intro i w hw; cases hw
  | cons b bs ih =>
    intro i w hw
    rw [length_cons]
    rcases mem_cons.1 hw with rfl | hw
    · exact ⟨by omega, by omega⟩
    · obtain ⟨hlo, hhi⟩ := ih hw
      exact ⟨by omega, by omega⟩

theorem applyWrites_logWrites {view : Nat → Block} : ∀ (d : Nat → Block) {i j : Nat}, j < bs.length →
      applyWrites d (logWrites start view i bs) (start + (i + j) + 1) = view (bs.getD j 0) := by
  induction bs with
  | nil => intro d i j hj; cases hj
  | cons b bs ih =>
    intro d i j hj
    rw [logWrites, applyWrites]
    cases j with
    | zero =>
      rw [applyWrites_of_not_mem fun w hw => ?_, Nat.add_zero i, update_self, getD_cons_zero]
      have := (mem_logWrites hw).1
      omega
    | succ j =>
      rw [← Nat.add_assoc i, Nat.add_right_comm i, getD_cons_succ]
      exact ih _ (Nat.lt_of_succ_lt_succ hj)

theorem homeWrites_eq_map : ∀ {i : Nat}, (∀ j, j < bs.length → v (start + (i + j) + 1) = u (bs.getD j 0)) →
      homeWrites start v i bs = bs.map fun b => (b, u b) := by
  induction bs with
  | nil => intro i _; rfl
  | cons b bs ih =>
    intro i h
    have hhead := h 0 (Nat.succ_pos _)
    rw [Nat.add_zero i, getD_cons_zero] at hhead
    rw [homeWrites, map_cons, hhead, ih fun j hj => ?_]
    have htail := h (j + 1) (Nat.succ_lt_succ hj)
    rwa [getD_cons_succ, ← Nat.add_assoc i, Nat.add_right_comm i] at htail

theorem run_recoverFromLog (hhead : headBlocks (d start) = bs)
    (hlen : bs.length ≤ LOGSIZE) (hout : ∀ b ∈ bs, ∀ j, j < bs.length → b ≠ start + j + 1) :
    ∃ s, (machine size).run () (recoverFromLog start) (boot d) = .ok () s ∧ s.writes = homeWrites start d 0 bs ++
        [(start, putHead (applyWrites d (homeWrites start d 0 bs) start) [])] ∧
      s.disk = applyWrites d s.writes := by
  have hinstall : (machine size).run () (installTrans start) ⟨d, d, ⟨0, false, bs⟩, []⟩ =
      .ok () (written ⟨d, d, ⟨0, false, bs⟩, []⟩ (homeWrites start d 0 bs)) :=
    run_installTransFrom size [] bs rfl (by omega) (by simpa using hout)
  have hclear := run_writeHead size start
    ⟨applyWrites d (homeWrites start d 0 bs), applyWrites d (homeWrites start d 0 bs), ⟨0, false, []⟩,
      homeWrites start d 0 bs⟩
  refine ⟨_, Eq.trans ?_ hclear, rfl, ?_⟩
  · rw [recoverFromLog, readHead]
    simp only [bind_assoc, run_bread, run_bdata]
    rw [show (boot d).view start = d start from rfl, hhead, run_setHead _ hlen, run_brelse]
    refine (run_bind_ok hinstall).trans ?_
    rw [run_setHead _ (Nat.zero_le _)]
    rfl
  · simp only [written, applyWrites_append]

/-! ### Transactions -/

variable {size}

/-- Block `b` belongs to the log: its header or one of its copies. -/
def InLog (start size b : Nat) : Prop := start ≤ b ∧ b < start + size

/-- A transaction as `log_write` builds it, over a disk whose log is empty: the distinct home blocks
`lh.block[0..n)`, and the content the cache holds for every block. -/
structure Txn (start size : Nat) where
  disk : Nat → Block
  view : Nat → Block
  blocks : List Nat
  empty : headN (disk start) = 0
  fits : blocks.length ≤ LOGSIZE
  fitsLog : blocks.length + 1 ≤ size
  nodup : blocks.Nodup
  outside : ∀ b ∈ blocks, ¬InLog start size b
  range : ∀ b ∈ blocks, b < 2 ^ 32

namespace Txn

variable (t : Txn start size)

/-- The machine when `end_op` calls `commit`. -/
def store : Store := ⟨t.disk, t.view, ⟨0, true, t.blocks⟩, []⟩

/-- The state after the transaction. -/
def post (b : Nat) : Block := if b ∈ t.blocks then t.view b else t.disk b

theorem start_inLog (t : Txn start size) : InLog start size start := by
  have := t.fitsLog
  exact ⟨Nat.le_refl _, by omega⟩

theorem copy_inLog {j : Nat} (hj : j < t.blocks.length) : InLog start size (start + j + 1) := by
  have := t.fitsLog
  exact ⟨by omega, by omega⟩

theorem ne_copy {b j : Nat} (hb : b ∈ t.blocks) (hj : j < t.blocks.length) : b ≠ start + j + 1 :=
  fun heq => t.outside b hb (heq ▸ t.copy_inLog hj)

/-- The writes that install the transaction. -/
def homes : List (Nat × Block) := t.blocks.map fun b => (b, t.view b)

theorem homes_outside {w : Nat × Block} (hw : w ∈ t.homes) : ¬InLog start size w.1 := by
  obtain ⟨b, hb, rfl⟩ := mem_map.1 hw
  exact t.outside b hb

theorem applyWrites_homes {b : Nat} (hd : b ∉ t.blocks → d b = t.disk b) : applyWrites d t.homes b = t.post b := by
  by_cases hb : b ∈ t.blocks
  · have hnodup : (t.homes.map Prod.fst).Nodup := by
      simpa [homes, comp_def] using t.nodup
    rw [post, if_pos hb]
    exact applyWrites_of_mem hnodup (w := (b, t.view b)) (mem_map_of_mem hb)
  · rw [post, if_neg hb, ← hd hb]
    refine applyWrites_of_not_mem fun w hw heq => hb ?_
    obtain ⟨c, hc, rfl⟩ := mem_map.1 hw
    exact heq ▸ hc

/-- The disk writes of `commit`, in program order. -/
def writes : List (Nat × Block) :=
  match (machine size).run () (commit start) t.store with
  | .ok _ s => s.writes
  | _ => []

theorem run_commit (hne : t.blocks ≠ []) : ∃ s h₁ h₂, (machine size).run () (commit start) t.store = .ok () s ∧
      s.writes = logWrites start t.view 0 t.blocks ++ [(start, putHead h₁ t.blocks)] ++ t.homes ++
        [(start, putHead h₂ [])] ∧ s.disk = applyWrites t.disk s.writes := by
  have hpos : 0 < t.blocks.length := length_pos_iff.2 hne
  have hfuel : t.blocks.length < LOGSIZE + 1 := Nat.lt_succ_of_le t.fits
  have hout : ∀ b ∈ t.blocks, ∀ j, j < ([] ++ t.blocks).length → b ≠ start + j + 1 :=
    fun b hb j hj => t.ne_copy hb hj
  have hlog : (machine size).run () (writeLog start) t.store =
      .ok () (t.store.written (logWrites start t.view 0 t.blocks)) :=
    run_writeLogFrom size [] t.blocks rfl hfuel hout
  have hhead := run_writeHead size start (t.store.written (logWrites start t.view 0 t.blocks))
  rw [written_append] at hhead
  generalize hws : logWrites start t.view 0 t.blocks ++ _ = ws at hhead
  have hinstall : (machine size).run () (installTrans start) (t.store.written ws) =
      .ok () ((t.store.written ws).written (homeWrites start (t.store.written ws).view 0 t.blocks)) :=
    run_installTransFrom size [] t.blocks rfl hfuel hout
  -- `install_trans` reads back the copies that `write_log` made
  have hhomes : homeWrites start (t.store.written ws).view 0 t.blocks = t.homes := by
    refine homeWrites_eq_map fun j hj => ?_
    have hne' : start + (0 + j) + 1 ≠ start := by omega
    simp only [written, ← hws, applyWrites_append, applyWrites, update_of_ne hne']
    exact applyWrites_logWrites _ hj
  rw [hhomes, written_append] at hinstall
  have hclear := run_writeHead size start { t.store.written (ws ++ t.homes) with log := ⟨0, true, []⟩ }
  refine ⟨_, ?_, ?_, Eq.trans ?_ hclear, ?_, ?_⟩
  rotate_left 3
  · rw [← hws]
    rfl
  · exact (applyWrites_append ..).symm
  rw [commit, run_getHead, show t.store.log.head = t.blocks from rfl, if_pos hpos,
    run_bind_ok hlog, run_bind_ok hhead, run_bind_ok hinstall,
    run_setHead _ (Nat.zero_le _)]
  rfl

/-- The header lists no block, and outside the log the disk is `X`. -/
def Idle (start size : Nat) (X d : Nat → Block) : Prop :=
  headN (d start) = 0 ∧ ∀ b, ¬InLog start size b → d b = X b

/-- The header lists the transaction, whose copies are in the log. -/
structure Pending (d : Nat → Block) : Prop where
  head : headBlocks (d start) = t.blocks
  copies : ∀ j, j < t.blocks.length → d (start + j + 1) = t.view (t.blocks.getD j 0)
  rest : ∀ b, ¬InLog start size b → b ∉ t.blocks → d b = t.disk b

theorem Idle.clear {X d : Nat → Block} (hd : ∀ b, ¬InLog start size b → d b = X b)
    (hstart : InLog start size start) (h : Block) :
    Idle start size X (applyWrites d [(start, putHead h [])]) := by
  refine ⟨?_, fun b hb => ?_⟩
  · rw [applyWrites, applyWrites, update_self, headN_putHead h (Nat.zero_le _)]
    rfl
  · rw [applyWrites_of_not_mem, hd b hb]
    rintro w hw rfl
    exact hb (mem_singleton.1 hw ▸ hstart)

variable {us : List (Nat × Block)}

theorem Pending.install (hd : t.Pending d) (hus : ∀ w ∈ us, w ∈ t.homes) : t.Pending (applyWrites d us) := by
  have hkeep : ∀ b, InLog start size b → applyWrites d us b = d b := fun b hb =>
    applyWrites_of_not_mem fun w hw heq => t.homes_outside (hus w hw) (heq ▸ hb)
  refine ⟨?_, fun j hj => ?_, fun b hb hmem => ?_⟩
  · rw [hkeep start t.start_inLog, hd.head]
  · rw [hkeep _ (t.copy_inLog hj), hd.copies j hj]
  · rw [applyWrites_of_not_mem, hd.rest b hb hmem]
    rintro w hw rfl
    obtain ⟨c, hc, rfl⟩ := mem_map.1 (hus w hw)
    exact hmem hc

theorem Pending.installed (hd : t.Pending d) (h : Block) :
    Idle start size t.post (applyWrites d (t.homes ++ [(start, putHead h [])])) := by
  rw [applyWrites_append]
  exact Idle.clear (fun b hb => t.applyWrites_homes (hd.rest b hb)) t.start_inLog h

/-! ### Crashes of `commit` -/

theorem idle_of_logWrites (hus : ∀ w ∈ us, w ∈ logWrites start t.view 0 t.blocks) :
    Idle start size t.disk (applyWrites t.disk us) := by
  have hlog : ∀ w ∈ us, start < w.1 ∧ InLog start size w.1 := by
    intro w hw
    obtain ⟨hlo, hhi⟩ := mem_logWrites (hus w hw)
    have := t.fitsLog
    exact ⟨by omega, by omega, by omega⟩
  refine ⟨?_, fun b hb => applyWrites_of_not_mem ?_⟩
  · rw [applyWrites_of_not_mem fun w hw => (hlog w hw).1.ne', t.empty]
  · rintro w hw rfl
    exact hb (hlog w hw).2

theorem pending_of_writeHead (h : Block) : t.Pending (applyWrites t.disk
      (logWrites start t.view 0 t.blocks ++ [(start, putHead h t.blocks)])) := by
  have hidle := t.idle_of_logWrites (List.Subset.refl _)
  rw [applyWrites_append, applyWrites, applyWrites]
  refine ⟨?_, fun j hj => ?_, fun b hb _ => ?_⟩
  · rw [update_self, headBlocks_putHead h t.fits t.range]
  · have hcopy := @applyWrites_logWrites start t.blocks t.view t.disk 0 j hj
    rw [Nat.zero_add] at hcopy
    rw [update_of_ne (by omega), hcopy]
  · rw [update_of_ne, hidle.2 b hb]
    rintro rfl
    exact hb t.start_inLog

/-- `commit` returns, with the blocks of the transaction in place. -/
theorem committed : ∃ s, (machine size).run () (commit start) t.store = .ok () s ∧ s.writes = t.writes ∧
    s.disk = applyWrites t.disk t.writes ∧ Idle start size t.post s.disk := by
  by_cases hne : t.blocks = []
  · have hrun : (machine size).run () (commit start) t.store = .ok () t.store := by
      simp [commit, store, hne, Machine.run]
    have hnil : t.writes = [] := by
      rw [writes, hrun]
      rfl
    rw [hnil]
    exact ⟨t.store, hrun, rfl, rfl, t.empty, fun b _ => by simp [post, hne, store]⟩
  · obtain ⟨s, h₁, h₂, hrun, hwrites, hdisk⟩ := t.run_commit hne
    have hall : t.writes = s.writes := by
      simp [writes, hrun]
    refine ⟨s, hrun, hall.symm, hall ▸ hdisk, ?_⟩
    rw [hdisk, hwrites, append_assoc, applyWrites_append]
    exact Pending.installed t (t.pending_of_writeHead h₁) h₂

/-- The disk is on its way to `X`: already there, or with the transaction pending. -/
def Settles (X d : Nat → Block) : Prop := Idle start size X d ∨ X = t.post ∧ t.Pending d

theorem Pending.settles (hd : t.Pending d) {h : Block}
    (hus : us <+: t.homes ++ [(start, putHead h [])]) : t.Settles t.post (applyWrites d us) := by
  rcases prefix_concat_iff.1 hus with rfl | hus
  · exact Or.inl (Pending.installed t hd h)
  · exact Or.inr ⟨rfl, Pending.install t hd fun w hw => hus.subset hw⟩

theorem settles_commit (hus : us <+: t.writes) :
    t.Settles (if ∃ w ∈ us, w.1 = start then t.post else t.disk) (applyWrites t.disk us) := by
  have hinit : us ⊆ logWrites start t.view 0 t.blocks →
      t.Settles (if ∃ w ∈ us, w.1 = start then t.post else t.disk) (applyWrites t.disk us) := by
    intro hsub
    rw [if_neg]
    · exact Or.inl (t.idle_of_logWrites hsub)
    · rintro ⟨w, hw, heq⟩
      exact absurd heq (by have := mem_logWrites (hsub hw); omega)
  by_cases hne : t.blocks = []
  · refine hinit ?_
    have hnil : t.writes = [] := by
      simp [writes, commit, show t.store.log.head = t.blocks from rfl, hne, Machine.run,
        show t.store.writes = [] from rfl]
    rw [hnil, prefix_nil] at hus
    simp [hus]
  · obtain ⟨s, h₁, h₂, hrun, hwrites, -⟩ := t.run_commit hne
    have hall : t.writes = logWrites start t.view 0 t.blocks ++
        (start, putHead h₁ t.blocks) :: (t.homes ++ [(start, putHead h₂ [])]) := by
      simp [writes, hrun, hwrites]
    rw [hall] at hus
    obtain ⟨vs, hvs⟩ := hus
    -- the crash comes before the header is written, or after it
    rcases append_eq_append_iff.1 hvs with ⟨xs, hlog, -⟩ | ⟨xs, rfl, hxs⟩
    · exact hinit (hlog ▸ subset_append_left us xs)
    · cases xs with
      | nil => exact hinit (by simp)
      | cons x xs =>
        obtain ⟨rfl, hrest⟩ := List.cons.inj hxs
        rw [if_pos ⟨(start, putHead h₁ t.blocks), by simp, rfl⟩, append_cons, applyWrites_append]
        exact Pending.settles t (t.pending_of_writeHead h₁) ⟨vs, hrest.symm⟩

/-! ### Crashes of recovery -/

/-- The disk writes of `recover_from_log` after booting from disk `d`. -/
def recoverWrites (start size : Nat) (d : Nat → Block) : List (Nat × Block) :=
  match (machine size).run () (recoverFromLog start) (boot d) with
  | .ok _ s => s.writes
  | _ => []

/-- The disk after one crash in `recover_from_log` for every number in the list: the number of disk
writes it had made. -/
def afterCrashes (start size : Nat) (d : Nat → Block) : List Nat → Nat → Block
  | [] => d
  | k :: ks => afterCrashes start size (applyWrites d ((recoverWrites start size d).take k)) ks

theorem Settles.recover {X d : Nat → Block} (hd : t.Settles X d) :
    ∃ s, (machine size).run () (recoverFromLog start) (boot d) = .ok () s ∧ Idle start size X s.disk ∧
      ∀ us, us <+: recoverWrites start size d → t.Settles X (applyWrites d us) := by
  rcases hd with hd | ⟨rfl, hd⟩
  · obtain ⟨s, hrun, hwrites, hdisk⟩ := run_recoverFromLog size
      (headBlocks_of_headN_nonpos hd.1.le) (Nat.zero_le _) (by simp)
    rw [homeWrites, nil_append] at hwrites
    have hclear := Idle.clear hd.2 t.start_inLog (applyWrites d [] start)
    refine ⟨s, hrun, by rwa [hdisk, hwrites], fun us hus => ?_⟩
    rw [recoverWrites, hrun] at hus
    simp only [hwrites] at hus
    rcases prefix_cons_iff.1 hus with rfl | ⟨vs, rfl, hvs⟩
    · exact Or.inl hd
    · rw [prefix_nil.1 hvs]
      exact Or.inl hclear
  · obtain ⟨s, hrun, hwrites, hdisk⟩ := run_recoverFromLog size hd.head t.fits fun b hb j hj => t.ne_copy hb hj
    have hhomes : homeWrites start d 0 t.blocks = t.homes :=
      homeWrites_eq_map fun j hj => by rw [Nat.zero_add]; exact hd.copies j hj
    rw [hhomes] at hwrites
    refine ⟨s, hrun, by rw [hdisk, hwrites]; exact Pending.installed t hd _, fun us hus => ?_⟩
    rw [recoverWrites, hrun] at hus
    simp only [hwrites] at hus
    exact Pending.settles t hd hus

theorem Settles.afterCrashes {X : Nat → Block} (ks : List Nat) : ∀ {d : Nat → Block},
    t.Settles X d → t.Settles X (afterCrashes start size d ks) := by
  induction ks with
  | nil => exact fun hd => hd
  | cons k ks ih =>
    intro d hd
    obtain ⟨s, hrun, hidle, hcut⟩ := Settles.recover t hd
    have htake := take_prefix k (recoverWrites start size d)
    exact ih (hcut _ htake)

/-- **Crash atomicity.** `commit` returns with the blocks of the transaction in place, and if there are any, it has
written a header that lists them. After a crash at any point of it, and any further crashes in recovery, the recovery
that completes leaves an empty log and, outside the log, the state after the transaction if the header had been
written, the state before it otherwise. -/
theorem commit_crash_atomic (t : Txn start size) :
    (∃ s, (machine size).run () (commit start) t.store = .ok () s ∧ s.writes = t.writes ∧
      s.disk = applyWrites t.disk t.writes ∧ headN (s.disk start) = 0 ∧
      ∀ b, ¬InLog start size b → s.disk b = t.post b) ∧
    (t.blocks ≠ [] → ∃ w ∈ t.writes, w.1 = start ∧ headBlocks w.2 = t.blocks) ∧
      ∀ (k : Nat) (crashes : List Nat), ∃ s,
        (machine size).run () (recoverFromLog start)
          (boot (Txn.afterCrashes start size (applyWrites t.disk (t.writes.take k)) crashes)) =
            .ok () s ∧
        headN (s.disk start) = 0 ∧
        ∀ b, ¬InLog start size b →
          s.disk b = if ∃ w ∈ t.writes.take k, w.1 = start then t.post b else t.disk b := by
  refine ⟨t.committed, fun hne => ?_, fun k crashes => ?_⟩
  · obtain ⟨s, h₁, h₂, hrun, hwrites, -⟩ := t.run_commit hne
    refine ⟨(start, putHead h₁ t.blocks), ?_, rfl, headBlocks_putHead h₁ t.fits t.range⟩
    simp [writes, hrun, hwrites]
  · have htake := take_prefix k t.writes
    have hcrash := Settles.afterCrashes t crashes (t.settles_commit htake)
    obtain ⟨s, hrun, hidle, -⟩ := Settles.recover t hcrash
    refine ⟨s, hrun, hidle.1, fun b hb => ?_⟩
    rw [hidle.2 b hb]
    split_ifs <;> rfl

/-- Two blocks of sevens, for a disk of zeros. -/
def two : Txn 2 30 where
  disk _ := Block.zero
  view _ _ := 7
  blocks := [100, 101]
  empty := by decide
  fits := by decide
  fitsLog := by decide
  nodup := by decide
  outside := by simp [InLog]
  range := by simp

/-- The third write is that of the header: nothing has changed if only two reached the disk, and both blocks have if
three did. -/
theorem commit_crash_atomic_two : two.writes.map Prod.fst = [3, 4, 2, 100, 101, 2] ∧ ∀ k crashes, ∃ s,
    (machine 30).run () (recoverFromLog 2)
      (boot (Txn.afterCrashes 2 30 (applyWrites two.disk (two.writes.take k)) crashes)) = .ok () s ∧
    (k = 2 → s.disk 100 = Block.zero ∧ s.disk 101 = Block.zero) ∧
    (k = 3 → s.disk 100 = (fun _ => 7) ∧ s.disk 101 = fun _ => 7) := by
  refine ⟨by decide, fun k crashes => ?_⟩
  obtain ⟨s, hrun, -, hs⟩ := (commit_crash_atomic two).2.2 k crashes
  have h₁ := hs 100 (by simp [InLog])
  have h₂ := hs 101 (by simp [InLog])
  refine ⟨s, hrun, ?_, ?_⟩
  · rintro rfl
    exact ⟨h₁.trans (if_neg (by decide)), h₂.trans (if_neg (by decide))⟩
  · rintro rfl
    exact ⟨h₁.trans (if_pos (by decide)), h₂.trans (if_pos (by decide))⟩

end Txn

end Store

end Xv6
