import Xv6.Lib.Mutex
import Xv6.Lib.Ring
import Xv6.Lib.Solo

/-! `pipe.c`: a pipe that any number of processes read and write, one locked section at a time. The counters
run freely and wrap at `2 ^ 32`. Two variables only record what happened: the bytes that were put into
the pipe and the ones that were taken out. -/

namespace Xv6

open Lib Logic Function Machine Option BitVec

def PIPESIZE : Nat := 512

/-- The wait channels of a pipe: the addresses of its counters. -/
inductive PipeChan where
  | nread
  | nwrite
  deriving DecidableEq

/-- `struct pipe`, with the processes that sleep on its channels and the ones that were killed. -/
structure Pipe (P : Type) where
  lock : Option P
  data : Nat → UInt8
  nread : BitVec 32
  nwrite : BitVec 32
  readopen : Bool
  writeopen : Bool
  asleep : P → Option PipeChan
  killed : P → Bool
  put : List UInt8
  taken : List UInt8

/-- The steps of `pipe.c` under `pi->lock`. -/
inductive PipeOp (P : Type) where
  | acquire
  | release
  | full
  | empty
  | readopen
  | writeopen
  | killed
  | put (ch : UInt8)
  | take
  | close (writable : Bool)
  | sleep (chan : PipeChan)
  | woken
  | wakeup (chan : PipeChan)
  | kill (q : P)
  | halt

/-- `full` and `empty` compare the counters, `put` and `take` move one byte and count it. `sleep` gives the
lock up, and `woken` takes it again once the process was woken. `kill` is that of another process.
`halt` is the end of the part of an endless loop that is looked at. -/
def PipeSig (P : Type) : Sig where
  Op := PipeOp P
  Ret
    | .full | .empty | .readopen | .writeopen | .killed => Bool
    | .take => UInt8
    | .halt => Empty
    | _ => Unit

namespace Pipe

variable {P : Type} [DecidableEq P]

def init : Pipe P where
  lock := none
  data _ := 0
  nread := 0
  nwrite := 0
  readopen := true
  writeopen := true
  asleep _ := none
  killed _ := false
  put := []
  taken := []

/-- The bytes that the pipe holds, in order. -/
def contents (s : Pipe P) : List UInt8 := slice s.data PIPESIZE s.nread s.nwrite

/-- `pi->data[pi->nwrite++ % PIPESIZE] = ch`. -/
def putByte (ch : UInt8) (s : Pipe P) : Pipe P :=
  { s with data := update s.data (cell PIPESIZE s.nwrite) ch, nwrite := s.nwrite + 1, put := s.put ++ [ch] }

/-- `pi->data[pi->nread % PIPESIZE]`. -/
def first (s : Pipe P) : UInt8 := s.data (cell PIPESIZE s.nread)

/-- `pi->nread++`. -/
def takeByte (s : Pipe P) : Pipe P := { s with nread := s.nread + 1, taken := s.taken ++ [s.first] }

def exec (p : P) : (o : PipeOp P) → Pipe P → Outcome (Pipe P) ((PipeSig P).Ret o)
  | .acquire, s => match s.lock with
    | some _ => .block
    | none => .ok () { s with lock := some p }
  | .release, s => .ok () { s with lock := none }
  | .full, s => .ok (s.nwrite == s.nread + BitVec.ofNat 32 PIPESIZE) s
  | .empty, s => .ok (s.nread == s.nwrite) s
  | .readopen, s => .ok s.readopen s
  | .writeopen, s => .ok s.writeopen s
  | .killed, s => .ok (s.killed p) s
  | .put ch, s => .ok () (s.putByte ch)
  | .take, s => .ok s.first s.takeByte
  | .close writable, s => .ok () (if writable then { s with writeopen := false }
      else { s with readopen := false })
  | .sleep chan, s => .ok () { s with lock := none, asleep := update s.asleep p (some chan) }
  | .woken, s => match s.asleep p, s.lock with
    | none, none => .ok () { s with lock := some p }
    | _, _ => .block
  | .wakeup chan, s => .ok () { s with
      asleep := fun q => if s.asleep q = some chan then none else s.asleep q }
  | .kill q, s => .ok () { s with
      killed := update s.killed q true
      asleep := update s.asleep q none }
  | .halt, _ => .block

def machine : Machine (PipeSig P) P (Pipe P) := ⟨exec⟩

/-! ### The code -/

def op (o : PipeOp P) : Prog (PipeSig P) ((PipeSig P).Ret o) := Prog.op (S := PipeSig P) o

def isFull : Prog (PipeSig P) Bool := op .full
def isEmpty : Prog (PipeSig P) Bool := op .empty
def isReadopen : Prog (PipeSig P) Bool := op .readopen
def isWriteopen : Prog (PipeSig P) Bool := op .writeopen
def isKilled : Prog (PipeSig P) Bool := op .killed

/-- `sleep`, as its two halves. -/
def sleep (chan : PipeChan) : Prog (PipeSig P) Unit := do
  op (.sleep chan)
  op .woken

/-- The loop of `pipewrite`, from byte `i` on. `src` has the bytes that `copyin` finds. One round
writes a byte or sleeps. -/
def pipewriteFrom (src : Nat → Option UInt8) (n : Nat) : Nat → Nat → Prog (PipeSig P) Int
  | 0, _ => .call .halt nofun
  | fuel + 1, i =>
      if i < n then do
        let full ← isFull
        if full then
          let readopen ← isReadopen
          let killed ← isKilled
          if !readopen || killed then
            op .release
            pure (-1)
          else
            op (.wakeup .nread)
            sleep .nwrite
            pipewriteFrom src n fuel i
        else
          match src i with
          | none => do
              op (.wakeup .nread)
              op .release
              pure i
          | some ch => do
              op (.put ch)
              pipewriteFrom src n fuel (i + 1)
      else do
        op (.wakeup .nread)
        op .release
        pure i

def pipewrite (src : Nat → Option UInt8) (n : Int) (fuel : Nat) : Prog (PipeSig P) Int := do
  op .acquire
  pipewriteFrom src n.toNat fuel 0

/-- The copying loop of `piperead`, with the user memory from `addr` on: `dst` tells whether `copyout` finds the byte's
page, and `buf` has the bytes. It gives the number of bytes counted and the memory. -/
def pipereadFrom (dst : Nat → Bool) : Nat → Nat → (Nat → UInt8) → Prog (PipeSig P) (Nat × (Nat → UInt8))
  | 0, i, buf => pure (i, buf)
  | n + 1, i, buf => do
      let empty ← isEmpty
      if empty then pure (i, buf)
      else
        let ch ← op .take
        if dst i then pipereadFrom dst n (i + 1) (update buf i ch) else pure (i, buf)

/-- The end of `piperead`. -/
def pipereadCopy (dst : Nat → Bool) (buf : Nat → UInt8) (n : Int) : Prog (PipeSig P) (Int × (Nat → UInt8)) := do
  let (i, buf) ← pipereadFrom dst n.toNat 0 buf
  op (.wakeup .nwrite)
  op .release
  pure (i, buf)

/-- `piperead` after it has the lock: what it returns, and the user memory. -/
def piperead (dst : Nat → Bool) (buf : Nat → UInt8) (n : Int) : Nat → Prog (PipeSig P) (Int × (Nat → UInt8))
  | 0 => .call .halt nofun
  | fuel + 1 => do
      let empty ← isEmpty
      let writeopen ← isWriteopen
      if empty && writeopen then
        let killed ← isKilled
        if killed then
          op .release
          pure (-1, buf)
        else
          sleep .nread
          piperead dst buf n fuel
      else pipereadCopy dst buf n

def pipeclose (writable : Bool) : Prog (PipeSig P) Unit := do
  op .acquire
  op (.close writable)
  op (.wakeup (if writable then .nread else .nwrite))
  op .release

/-- What a process does with the pipe. -/
inductive Call (P : Type) where
  | write (src : Nat → Option UInt8) (n : Int) (fuel : Nat)
  | read (dst : Nat → Bool) (buf : Nat → UInt8) (n : Int) (fuel : Nat)
  | close (writable : Bool)
  | kill (q : P)

def Call.run : Call P → Prog (PipeSig P) Unit
  | write src n fuel => do
      let _ ← pipewrite src n fuel
      pure ()
  | read dst buf n fuel => do
      op .acquire
      let _ ← piperead dst buf n fuel
      pure ()
  | close writable => pipeclose writable
  | kill q => op (.kill q)

def runAll : List (Call P) → Prog (PipeSig P) Unit
  | [] => pure ()
  | c :: cs => do
      c.run
      runAll cs

/-! ### What holds in every state -/

/-- A process that has the lock knows the counters. -/
abbrev Counters := Option (BitVec 32 × BitVec 32)

/-- The promises of the code: the lock is held where it has to be, a byte is put only into a pipe that is not
full and taken only out of one that is not empty. -/
def sections : Logic (PipeSig P) Counters where
  pre
    | _, .acquire | _, .kill _ | _, .halt => True
    | ρ, .woken => ρ = none
    | ρ, .put _ => ∃ r w, ρ = some (r, w) ∧ w ≠ r + BitVec.ofNat 32 PIPESIZE
    | ρ, .take => ∃ r w, ρ = some (r, w) ∧ r ≠ w
    | ρ, _ => ρ.isSome
  post
    | _, .acquire, _, ρ' | _, .woken, _, ρ' => ρ'.isSome
    | _, .release, _, ρ' | _, .sleep _, _, ρ' => ρ' = none
    | ρ, .full, r, ρ' => ρ' = ρ ∧ ∀ rd wr, ρ = some (rd, wr) → r = (wr == rd + BitVec.ofNat 32 PIPESIZE)
    | ρ, .empty, r, ρ' => ρ' = ρ ∧ ∀ rd wr, ρ = some (rd, wr) → r = (rd == wr)
    | ρ, .put _, _, ρ' => ρ' = ρ.map fun c => (c.1, c.2 + 1)
    | ρ, .take, _, ρ' => ρ' = ρ.map fun c => (c.1 + 1, c.2)
    | ρ, _, _, ρ' => ρ' = ρ

/-- What was taken out and what the pipe holds is what was put in, and the pipe does not overflow. -/
structure Fifo (s : Pipe P) : Prop where
  le : (s.nwrite - s.nread).toNat ≤ PIPESIZE
  order : s.taken ++ s.contents = s.put

/-- The invariant: the holder of the lock knows the counters. -/
structure Inv (s : Pipe P) (ρ : P → Counters) : Prop where
  mutex : Mutex s.lock ρ
  knows : ∀ c ∈ holder s.lock ρ, c = (s.nread, s.nwrite)
  fifo : s.Fifo

section

omit [DecidableEq P]

variable {s s' : Pipe P}

theorem length_contents (s : Pipe P) : s.contents.length = (s.nwrite - s.nread).toNat := by simp [contents, slice]

/-- The byte that is taken is the first one. -/
theorem contents_takeByte (hsome : s.nread ≠ s.nwrite) : s.contents = s.first :: s.takeByte.contents := slice_pop hsome

/-- A byte put into a pipe that is not full comes last, and overwrites none that the pipe holds. -/
theorem Fifo.putByte (h : s.Fifo) (hroom : s.nwrite ≠ s.nread + BitVec.ofNat 32 PIPESIZE) (ch : UInt8) :
    (s.putByte ch).Fifo := by
  have hlt : (s.nwrite - s.nread).toNat < PIPESIZE := by
    refine lt_of_le_of_ne h.le fun heq => hroom ?_
    rw [← heq, add_ofNat_sub]
  have hcontents : (s.putByte ch).contents = s.contents ++ [ch] := slice_push (by decide) hlt (by decide) ch
  refine ⟨?_, ?_⟩
  · rw [← length_contents, hcontents, List.length_append, length_contents]
    exact hlt
  · rw [hcontents, ← List.append_assoc]
    exact congrArg (· ++ [ch]) h.order

theorem Fifo.takeByte (h : s.Fifo) (hsome : s.nread ≠ s.nwrite) : s.takeByte.Fifo := by
  have hcontents := contents_takeByte hsome
  have hlen := congrArg List.length hcontents
  have hle := h.le
  rw [List.length_cons, length_contents, length_contents] at hlen
  refine ⟨by omega, ?_⟩
  have horder := h.order
  rw [hcontents] at horder
  exact (List.append_assoc ..).trans horder

/-- What does not touch the counters and the bytes keeps the order. -/
theorem Fifo.congr (h : s.Fifo) (hnread : s'.nread = s.nread) (hnwrite : s'.nwrite = s.nwrite)
    (hdata : s'.data = s.data) (htaken : s'.taken = s.taken) (hput : s'.put = s.put) : s'.Fifo := by
  refine ⟨by rw [hnread, hnwrite]; exact h.le, ?_⟩
  rw [htaken, hput, ← h.order]
  unfold contents
  rw [hnread, hnwrite, hdata]

end

namespace Inv

variable {s s' : Pipe P} {ρ : P → Counters} {p : P}

omit [DecidableEq P] in
theorem counters (h : Inv s ρ) {c : BitVec 32 × BitVec 32} (hc : ρ p = some c) : c = (s.nread, s.nwrite) :=
  h.knows c (h.mutex.holder_eq hc)

/-- A step that leaves the lock alone. -/
theorem same (h : Inv s ρ) (hlock : s'.lock = s.lock) (hnread : s'.nread = s.nread)
    (hnwrite : s'.nwrite = s.nwrite) (hfifo : s'.Fifo) : Inv s' (update ρ p (ρ p)) := by
  rw [update_eq_self]
  refine ⟨?_, ?_, hfifo⟩
  · rw [hlock]
    exact h.mutex
  · rw [hlock, hnread, hnwrite]
    exact h.knows

/-- A step of a process that takes the lock, gives it up or moves a counter. -/
theorem step (h : Inv s ρ) {x : Counters} (hwas : s.lock = none ∨ (ρ p).isSome)
    (hlock : s'.lock = if x.isSome then some p else none) (hknows : ∀ c ∈ x, c = (s'.nread, s'.nwrite))
    (hfifo : s'.Fifo) : Inv s' (update ρ p x) := by
  refine ⟨?_, ?_, hfifo⟩
  · rw [hlock]
    exact h.mutex.update hwas x
  · rw [hlock, Mutex.holder_update]
    exact hknows

end Inv

theorem sound : (machine : Machine (PipeSig P) P (Pipe P)).Sound sections (fun _ _ _ => True) Inv := by
  intro s ρ p o r s' hinv hpre _ hexec
  have hfifo : s'.nread = s.nread → s'.nwrite = s.nwrite → s'.data = s.data → s'.taken = s.taken → s'.put = s.put →
      s'.Fifo := fun h₁ h₂ h₃ h₄ h₅ => hinv.fifo.congr h₁ h₂ h₃ h₄ h₅
  have hknown : ∀ c ∈ some (s.nread, s.nwrite), c = (s.nread, s.nwrite) := fun _ hc => (Option.some.inj hc).symm
  cases o with
  | acquire =>
    simp only [machine, exec] at hexec
    split at hexec
    · cases hexec
    · rename_i hfree
      cases hexec
      exact ⟨some (s.nread, s.nwrite), rfl, hinv.step (Or.inl hfree) rfl hknown (hfifo rfl rfl rfl rfl rfl)⟩
  | release | sleep =>
    cases hexec
    exact ⟨none, rfl, hinv.step (Or.inr hpre) rfl nofun (hfifo rfl rfl rfl rfl rfl)⟩
  | full | empty =>
    cases hexec
    refine ⟨_, ⟨rfl, fun rd wr hρ => ?_⟩, hinv.same rfl rfl rfl hinv.fifo⟩
    cases hinv.counters hρ
    rfl
  | readopen | writeopen | killed | wakeup | kill =>
    cases hexec
    exact ⟨_, rfl, hinv.same rfl rfl rfl (hfifo rfl rfl rfl rfl rfl)⟩
  | put ch =>
    cases hexec
    obtain ⟨rd, wr, hρ, hroom⟩ := hpre
    cases hinv.counters hρ
    have hlock := (hinv.mutex p).2 (by rw [hρ]; rfl)
    exact ⟨some (s.nread, s.nwrite + 1), by simp [sections, hρ], hinv.step (Or.inr (by rw [hρ]; rfl)) hlock
      (fun _ hc => (Option.some.inj hc).symm) (hinv.fifo.putByte hroom ch)⟩
  | take =>
    cases hexec
    obtain ⟨rd, wr, hρ, hne⟩ := hpre
    cases hinv.counters hρ
    have hlock := (hinv.mutex p).2 (by rw [hρ]; rfl)
    exact ⟨some (s.nread + 1, s.nwrite), by simp [sections, hρ], hinv.step (Or.inr (by rw [hρ]; rfl)) hlock
      (fun _ hc => (Option.some.inj hc).symm) (hinv.fifo.takeByte hne)⟩
  | close writable =>
    cases hexec
    cases writable <;> exact ⟨_, rfl, hinv.same rfl rfl rfl (hfifo rfl rfl rfl rfl rfl)⟩
  | woken =>
    simp only [machine, exec] at hexec
    split at hexec
    · rename_i hfree
      cases hexec
      exact ⟨some (s.nread, s.nwrite), rfl, hinv.step (Or.inl hfree) rfl hknown (hfifo rfl rfl rfl rfl rfl)⟩
    · cases hexec
  | halt => cases hexec

/-! ### The code keeps its promises -/

section Code

variable {ρ : Counters}

omit [DecidableEq P]

theorem wp_finish {α : Type} (chan : PipeChan) (a : α) (hρ : ρ.isSome) :
    sections.wp (do op (P := P) (.wakeup chan); op .release; pure a) (fun _ ρ => ρ = none) ρ :=
  wp_step hρ fun _ _ heq => wp_step (heq ▸ hρ) fun _ _ hnone => hnone

theorem wp_pipewriteFrom (src : Nat → Option UInt8) (n fuel : Nat) (i : Nat) (hρ : ρ.isSome) :
    sections.wp (pipewriteFrom (P := P) src n fuel i) (fun _ ρ => ρ = none) ρ := by
  induction fuel generalizing i ρ with
  | zero => exact ⟨trivial, nofun⟩
  | succ fuel ih =>
    obtain ⟨⟨rd, wr⟩, rfl⟩ := isSome_iff_exists.1 hρ
    unfold pipewriteFrom
    split
    · refine wp_step rfl ?_
      rintro full _ ⟨rfl, hfull⟩
      split
      · refine wp_step rfl ?_
        rintro readopen _ rfl
        refine wp_step rfl ?_
        rintro killed _ rfl
        split
        · exact wp_step rfl fun _ _ hnone => hnone
        · refine wp_step rfl ?_
          rintro _ _ rfl
          refine wp_step rfl fun _ _ hnone => wp_step hnone fun _ ρ' hsome => ih i hsome
      · rename_i hroom
        have hne : wr ≠ rd + BitVec.ofNat 32 PIPESIZE := by
          rw [hfull rd wr rfl, beq_iff_eq] at hroom
          exact hroom
        split
        · exact wp_finish .nread _ rfl
        · refine wp_step ⟨rd, wr, rfl, hne⟩ ?_
          rintro _ _ rfl
          exact ih (i + 1) rfl
    · exact wp_finish .nread _ rfl

theorem wp_pipereadFrom (dst : Nat → Bool) (n i : Nat) (buf : Nat → UInt8) (hρ : ρ.isSome) :
    sections.wp (pipereadFrom (P := P) dst n i buf) (fun _ ρ => ρ.isSome) ρ := by
  induction n generalizing i buf ρ with
  | zero => exact hρ
  | succ n ih =>
    obtain ⟨⟨rd, wr⟩, rfl⟩ := isSome_iff_exists.1 hρ
    unfold pipereadFrom
    refine wp_step rfl ?_
    rintro empty _ ⟨rfl, hempty⟩
    split
    · exact rfl
    · rename_i hsome
      have hne : rd ≠ wr := by
        rw [hempty rd wr rfl, beq_iff_eq] at hsome
        exact hsome
      refine wp_step ⟨rd, wr, rfl, hne⟩ ?_
      rintro ch _ rfl
      split
      · exact ih (i + 1) _ rfl
      · exact rfl

theorem wp_piperead (dst : Nat → Bool) (buf : Nat → UInt8) (n : Int) (fuel : Nat) (hρ : ρ.isSome) :
    sections.wp (piperead (P := P) dst buf n fuel) (fun _ ρ => ρ = none) ρ := by
  induction fuel generalizing ρ with
  | zero => exact ⟨trivial, nofun⟩
  | succ fuel ih =>
    unfold piperead
    refine wp_step hρ ?_
    rintro empty _ ⟨rfl, -⟩
    refine wp_step hρ ?_
    rintro writeopen _ rfl
    split
    · refine wp_step hρ ?_
      rintro killed _ rfl
      split
      · exact wp_step hρ fun _ _ hnone => hnone
      · exact wp_step hρ fun _ _ hnone => wp_step hnone fun _ _ hsome => ih hsome
    · exact wp_seq (wp_pipereadFrom dst _ 0 buf hρ) fun _ _ hsome => wp_finish .nwrite _ hsome

theorem wp_run (c : Call P) : sections.wp c.run (fun _ ρ => ρ = none) none := by
  cases c with
  | write src n fuel =>
    refine wp_seq (A := fun _ ρ => ρ = none) ?_ fun _ _ hnone => hnone
    exact wp_step trivial fun _ _ hsome => wp_pipewriteFrom src _ fuel 0 hsome
  | read dst buf n fuel =>
    refine wp_step trivial fun _ _ hsome => ?_
    exact wp_seq (wp_piperead dst buf n fuel hsome) fun _ _ hnone => hnone
  | close writable =>
    refine ⟨trivial, fun _ ρ hsome => ⟨hsome, ?_⟩⟩
    rintro _ _ rfl
    refine ⟨hsome, ?_⟩
    rintro _ _ rfl
    exact ⟨hsome, fun _ _ hnone => hnone⟩
  | kill q => exact ⟨trivial, fun _ _ heq => heq⟩

theorem wp_runAll (cs : List (Call P)) : sections.wp (runAll cs) (fun _ ρ => ρ = none) none := by
  induction cs with
  | nil => exact rfl
  | cons c cs ih => exact wp_seq (wp_run c) fun _ ρ hρ => hρ ▸ ih

end Code

omit [DecidableEq P] in
theorem inv_init : Inv (init : Pipe P) fun _ => none := by
  refine ⟨fun p => by simp [init], nofun, ?_, ?_⟩
  · simp [init]
  · simp [init, contents]

/-- **Pipes are queues.** Whatever calls any number of processes make: in every state the bytes taken out,
followed by the ones that `data` holds, are the bytes put in, and no more than `PIPESIZE` are held. -/
theorem pipe_fifo (calls : P → List (Call P)) {c : Conf (PipeSig P) P (Pipe P)}
    (hreach : machine.Reach (fun _ _ _ => True) ⟨init, fun p => runAll (calls p)⟩ c) :
    c.st.taken ++ c.st.contents = c.st.put ∧ c.st.taken <+: c.st.put ∧
      (c.st.nwrite - c.st.nread).toNat ≤ PIPESIZE := by
  obtain ⟨ρ, hinv, -⟩ := hreach.inv (Q := fun _ => True) sound inv_init fun p =>
    wp_mono (fun _ _ _ => trivial) (wp_runAll (calls p))
  exact ⟨hinv.fifo.order, ⟨_, hinv.fifo.order⟩, hinv.fifo.le⟩

/-- Of two bytes that process 0 wrote, process 1 has read one. -/
theorem pipe_fifo_two : ∃ c : Conf (PipeSig (Fin 2)) (Fin 2) (Pipe (Fin 2)),
    (c.st.put = [7, 8] ∧ c.st.taken = [7]) ∧ [7] ++ c.st.contents = [7, 8] := by
  let calls (p : Fin 2) : List (Call (Fin 2)) :=
    if p = 0 then [.write (fun i => some (UInt8.ofNat (7 + i))) 2 3] else [.read (fun _ => true) (fun _ => 0) 1 1]
  obtain ⟨c, hreach, hbytes⟩ : ∃ c, machine.Reach (fun _ _ _ => True) ⟨init, fun p => runAll (calls p)⟩ c ∧
      c.st.put = [7, 8] ∧ c.st.taken = [7] :=
    exists_reach (fun _ _ _ => true) (fun _ _ _ _ => trivial)
      (List.replicate 7 0 ++ List.replicate 5 1) _ _ (by decide)
  have horder := (pipe_fifo calls hreach).1
  rw [hbytes.1, hbytes.2] at horder
  exact ⟨c, hbytes, horder⟩

/-! ### What a read removes and stores -/

theorem run_pipereadFrom (p : P) (dst : Nat → Bool) (n i : Nat) (buf : Nat → UInt8) (s : Pipe P) :
    ∃ k buf' s', machine.run p (pipereadFrom dst n i buf) s = .ok (i + k, buf') s' ∧ ∃ lost,
      s'.taken = s.taken ++ s.contents.take (k + lost) ∧ s'.contents = s.contents.drop (k + lost) ∧
      k + lost ≤ min n s.contents.length ∧ (lost = 0 ↔ ∀ j < min n s.contents.length, dst (i + j)) ∧
      ∀ j, buf' j = if i ≤ j ∧ j < i + k then s.contents.getD (j - i) 0 else buf j := by
  induction n generalizing i buf s with
  | zero => exact ⟨0, buf, s, rfl, 0, by simp, rfl, by simp, by simp, fun j => (if_neg (by omega)).symm⟩
  | succ n ih =>
    by_cases hempty : s.nread = s.nwrite
    · -- the loop ends at an empty pipe
      have hnil : s.contents = [] := by simp [contents, hempty]
      refine ⟨0, buf, s, ?_, 0, by simp, rfl, by simp, by simp [hnil], fun j => (if_neg (by omega)).symm⟩
      show machine.run p (if s.nread == s.nwrite then pure (i, buf) else _) s = _
      rw [if_pos (beq_iff_eq.2 hempty)]
      rfl
    · have hcons := contents_takeByte hempty
      have hmin : min (n + 1) (s.takeByte.contents.length + 1) = min n s.takeByte.contents.length + 1 := by omega
      have hturn : machine.run p (pipereadFrom dst (n + 1) i buf) s = machine.run p
          (if dst i then pipereadFrom dst n (i + 1) (update buf i s.first) else pure (i, buf)) s.takeByte := by
        show machine.run p (if s.nread == s.nwrite then pure (i, buf) else _) s = _
        rw [if_neg (mt beq_iff_eq.1 hempty)]
        rfl
      rw [hturn, hcons, List.length_cons, hmin]
      by_cases hdst : dst i
      · obtain ⟨k, buf', s', hrun, lost, htaken, hcontents, hle, hiff, hbuf⟩ := ih (i + 1) (update buf i s.first) s.takeByte
        refine ⟨k + 1, buf', s', ?_, lost, ?_, ?_, by omega, ?_, fun j => ?_⟩
        · rw [if_pos hdst, hrun, Nat.add_right_comm]
          rfl
        · rw [htaken, Nat.add_right_comm, List.take_succ_cons]
          exact List.append_assoc ..
        · rw [hcontents, Nat.add_right_comm, List.drop_succ_cons]
        · rw [hiff, Nat.forall_lt_succ_left]
          simp [hdst, Nat.add_assoc, Nat.add_comm 1]
        · rw [hbuf j]
          by_cases hj : j = i
          · rw [hj, if_neg (by omega), if_pos (by omega), update_self, Nat.sub_self, List.getD_cons_zero]
          · rw [update_of_ne hj]
            by_cases hin : i + 1 ≤ j ∧ j < i + 1 + k
            · rw [if_pos hin, if_pos (by omega), show j - i = j - (i + 1) + 1 by omega, List.getD_cons_succ]
            · rw [if_neg hin, if_neg (by omega)]
      · refine ⟨0, buf, s.takeByte, ?_, 1, rfl, rfl, by omega, ?_, fun j => (if_neg (by omega)).symm⟩
        · rw [if_neg hdst]
          rfl
        · exact ⟨nofun, fun hall => absurd (hall 0 (by omega)) hdst⟩

/-- A call that returns `r` has removed the first `r` bytes of the pipe and no others, and has stored these and nothing
else in user memory; or it sleeps because there are none. -/
def Lossless (s : Pipe P) (buf : Nat → UInt8) : Outcome (Pipe P) (Int × (Nat → UInt8)) → Prop
  | .ok (r, buf') s' => r.toNat ≤ s.contents.length ∧ s'.taken = s.taken ++ s.contents.take r.toNat ∧
      s'.contents = s.contents.drop r.toNat ∧ ∀ j, buf' j = if j < r.toNat then s.contents.getD j 0 else buf j
  | .block => s.contents = []
  | .panic _ => False

/-- A read of process `p`, which has the lock, loses nothing if and only if `copyout` finds the pages for as many
bytes as there are to read. -/
theorem piperead_lossless_iff (p : P) (dst : Nat → Bool) (buf : Nat → UInt8) (n : Int) (fuel : Nat) (s : Pipe P) :
    s.Lossless buf (machine.run p (piperead dst buf n (fuel + 1)) s) ↔
      ∀ i < min n.toNat s.contents.length, dst i := by
  have hfirst : machine.run p (piperead dst buf n (fuel + 1)) s = machine.run p (
      if s.nread == s.nwrite && s.writeopen then do
        let killed ← isKilled
        if killed then do
          op .release
          pure (-1, buf)
        else do
          sleep .nread
          piperead dst buf n fuel
      else pipereadCopy dst buf n) s := rfl
  by_cases hwait : (s.nread == s.nwrite && s.writeopen) = true
  · have hempty : s.nread = s.nwrite := beq_iff_eq.1 (Bool.and_eq_true_iff.1 hwait).1
    have hnil : s.contents = [] := by simp [contents, hempty]
    rw [hfirst, if_pos hwait]
    refine iff_of_true ?_ (by simp [hnil])
    cases hkilled : s.killed p with
    | true =>
        rw [run_bind_ok (show machine.run p isKilled s = .ok true s by rw [← hkilled]; rfl)]
        refine ⟨Nat.zero_le _, by simp, ?_, fun j => rfl⟩
        rw [hnil, List.drop_nil]
        exact hnil
    | false =>
        -- nobody wakes the process while it is the only one that runs
        let t : Pipe P := { s with lock := none, asleep := update s.asleep p (some .nread) }
        have hwoken : machine.exec p .woken t = .block := by simp [machine, exec, t]
        rw [run_bind_ok (show machine.run p isKilled s = .ok false s by rw [← hkilled]; rfl)]
        show s.Lossless buf (machine.run p (.call .woken fun _ => piperead dst buf n fuel) t)
        rw [run_call_block hwoken]
        exact hnil
  · obtain ⟨k, buf', s', hrun, lost, htaken, hcontents, hle, hiff, hbuf⟩ := run_pipereadFrom p dst n.toNat 0 buf s
    simp only [Nat.zero_add] at hrun hiff
    rw [hfirst, if_neg hwait, pipereadCopy, run_bind_ok hrun, ← hiff]
    show k ≤ s.contents.length ∧ s'.taken = s.taken ++ s.contents.take k ∧ s'.contents = s.contents.drop k ∧
      (∀ j, buf' j = if j < k then s.contents.getD j 0 else buf j) ↔ lost = 0
    constructor
    · rintro ⟨-, -, hdrop, -⟩
      have hlen := congrArg List.length (hdrop.symm.trans hcontents)
      rw [List.length_drop, List.length_drop] at hlen
      omega
    · rintro rfl
      exact ⟨by omega, htaken, hcontents, by simpa using hbuf⟩

/-- The one byte of a pipe is removed by a read that cannot store it, and that returns 0. -/
theorem piperead_loses_byte : ∃ s : Pipe Unit, s.contents = [7] ∧
    (match machine.run () (piperead (fun _ => false) (fun _ => 0) 1 1) s with
      | .ok r s' => r = (0, fun _ => 0) ∧ s'.contents = []
      | _ => False) :=
  ⟨{ (init : Pipe Unit) with nwrite := 1, data := fun _ => 7 }, by decide, rfl, rfl⟩

end Pipe

end Xv6
