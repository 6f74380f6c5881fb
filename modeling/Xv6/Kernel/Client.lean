import Xv6.Kernel.Calls

/-! The protocol of the code above the log. A process runs one operation at a time, uses the buffers it
holds, and keeps what the rules promise. `log.c` meets this protocol over the calls of `bio.c`, so that
every program that follows it is safe on the machine, however the processes interleave. -/

namespace Xv6

open Lib Logic Function

/-- What a process has between two calls: the blocks its operation logged, and the buffers it holds. -/
structure Session where
  op : Option (Finset Nat)
  held : Fin NBUF → Option Held

namespace Session

def start : Session := ⟨none, fun _ => none⟩

def hold (c : Session) (i : Fin NBUF) (x : Held) : Session :=
  { c with held := update c.held i (some x) }

def release (c : Session) (i : Fin NBUF) : Session :=
  { c with held := update c.held i none }

variable {c : Session} {i j : Fin NBUF} {x y : Held}

@[simp] theorem held_hold_self : (c.hold i x).held i = some x := update_self ..

@[simp] theorem hold_hold : (c.hold i x).hold i y = c.hold i y := by
  rw [hold, hold, hold, update_idem]

theorem release_hold (h : c.held i = none) : (c.hold i x).release i = c := by
  rw [release, hold, update_idem, ← h, update_eq_self]

def log (c : Session) (i : Fin NBUF) (x : Held) (S : Finset Nat) : Session :=
  { c.hold i ⟨x.blockno, x.data, .safe⟩ with op := some (insert x.blockno S) }

@[simp] theorem held_log_self {S : Finset Nat} :
    (c.log i x S).held i = some ⟨x.blockno, x.data, .safe⟩ := update_self ..

theorem release_log {S : Finset Nat} :
    (c.log i x S).release i = { c.release i with op := some (insert x.blockno S) } := by
  rw [release, release, log, hold, update_idem]

def toRes (c : Session) : Res := ⟨⟨c.held, .none⟩, c.op, none, .client⟩

end Session

/-- The calls the code above the log makes: what the protocol asks for, and what they leave. -/
def protocol (R : Rules) (E : Sig) : Logic (Client (Fin NBUF) E) Session where
  pre c
    | .bread dev _ => dev = ROOTDEV ∧ (R.inOp → c.op.isSome)
    | .bdata i => (c.held i).isSome
    | .bstore i _ => (c.held i).isSome
    | .bcopyin i _ _ _ => (c.held i).isSome
    | .bwrite i => (c.held i).isSome
    | .brelse i => ∃ x, c.held i = some x ∧ (R.tracked → x.status ≠ .dirty)
    | .beginOp => R.booting = false ∧ c.op = none
    | .endOp => c.op.isSome ∧ (R.inOp → ∀ i, c.held i = none)
    | .logWrite i => (R.guarded ∨ c.op.isSome) ∧ ∃ x, c.held i = some x ∧
        (R.bounded → ∀ S, c.op = some S → (insert x.blockno S).card ≤ MAXOPBLOCKS)
    | .ext _ => True
  post c
    | .bread _ b, i, c' => ∃ d, c.held i = none ∧ c' = c.hold i ⟨b, d, .safe⟩
    | .bdata i, d, c' => c' = c ∧ ∃ x, c.held i = some x ∧ d = x.data
    | .bstore i d, _, c' => ∃ x, c.held i = some x ∧ c' = c.hold i ⟨x.blockno, d, .dirty⟩
    | .bcopyin i _ _ _, ok, c' => R.guarded ∧ ok = false ∧ c' = c ∨ (R.guarded → ok = true) ∧
        ∃ x d, c.held i = some x ∧ c' = c.hold i ⟨x.blockno, d, .dirty⟩
    | .bwrite i, _, c' => ∃ x, c.held i = some x ∧ c' = c.hold i ⟨x.blockno, x.data, .synced⟩
    | .brelse i, _, c' => c' = c.release i
    | .beginOp, _, c' => c' = { c with op := some ∅ }
    | .endOp, _, c' => c' = { c with op := none }
    | .logWrite i, _, c' => ∃ x S, c.held i = some x ∧ c.op = some S ∧
        c' = c.log i x S
    | .ext _, _, c' => c' = c

section Spec

variable {E : Sig} {R : Rules} {start : Nat} {c : Session} {i : Fin NBUF}

/-- A call of `log.c` meets the protocol. -/
def Meets (R : Rules) (start : Nat) (c : Session) (o : ClientOp (Fin NBUF) E) : Prop :=
  (calls R E).wp (logC start o) (fun r ρ' => ∃ c', (protocol R E).post c o r c' ∧ ρ' = c'.toRes) c.toRes

theorem meets_bread {dev b : Nat} (hpre : (protocol R E).pre c (.bread dev b)) :
    Meets R start c (.bread dev b : ClientOp (Fin NBUF) E) := by
  obtain ⟨rfl, hop⟩ := hpre
  refine ⟨⟨rfl, rfl, hop⟩, ?_⟩
  rintro i _ ⟨d, hnone, -, rfl⟩
  exact ⟨_, ⟨d, hnone, rfl⟩, rfl⟩

theorem meets_logWrite (hpre : (protocol R E).pre c (.logWrite i)) :
    Meets R start c (.logWrite i : ClientOp (Fin NBUF) E) := by
  obtain ⟨hop, x, hx, hsmall⟩ := hpre
  refine ⟨⟨show (c.held i).isSome by rw [hx]; rfl, hop⟩, ?_⟩
  rintro ⟨⟩ _ ⟨y, S, hy, hS, rfl⟩
  cases hx.symm.trans hy
  refine ⟨⟨rfl, x, S, hx, hS, rfl, fun hR => hsmall hR S hS⟩, ?_⟩
  rintro ⟨⟩ _ ⟨y, S', hy, hS', rfl⟩
  cases hx.symm.trans hy
  cases hS.symm.trans hS'
  exact ⟨_, ⟨x, S, hx, hS, rfl⟩, rfl⟩

theorem meets_endOp (hK : ∀ b d, R.keeps b d) (hpre : (protocol R E).pre c .endOp) :
    Meets R start c (.endOp : ClientOp (Fin NBUF) E) := by
  obtain ⟨hop, hempty⟩ := hpre
  have hcount : R.inOp → ∀ i, (⟨c.held, .none⟩ : Bufs).count i = 0 := fun hR i => by
    simp [Bufs.count, Bufs.heldCount, Bufs.transitCount, hempty hR i, Transit.buf]
  refine ⟨⟨hop, hcount⟩, ?_⟩
  rintro _ _ (⟨rfl, rfl⟩ | ⟨rfl, lh, hlen, rfl⟩)
  · exact ⟨_, rfl, rfl⟩
  · show (calls R E).wp (commit start >>= fun _ => Bio.logDone) _ _
    refine wp_seq (wp_commit hK rfl hcount hlen) ?_
    rintro ⟨⟩ _ rfl
    refine ⟨⟨rfl, hcount⟩, ?_⟩
    rintro ⟨⟩ _ rfl
    exact ⟨_, rfl, rfl⟩

/-- `log.c` meets the protocol. -/
theorem logC_spec (start : Nat) (hK : ∀ b d, R.keeps b d) (c : Session) (o : ClientOp (Fin NBUF) E)
    (hpre : (protocol R E).pre c o) : Meets R start c o := by
  cases o with
  | bread dev b => exact meets_bread hpre
  | logWrite i => exact meets_logWrite hpre
  | endOp => exact meets_endOp hK hpre
  | bdata i =>
    refine ⟨hpre, ?_⟩
    rintro d _ ⟨rfl, x, hx, rfl⟩
    exact ⟨c, ⟨rfl, x, hx, rfl⟩, rfl⟩
  | bstore i d =>
    obtain ⟨x, hx⟩ := Option.isSome_iff_exists.1 hpre
    refine ⟨⟨rfl, x, hx, hK _ _⟩, ?_⟩
    rintro ⟨⟩ _ ⟨y, hy, rfl⟩
    exact ⟨_, ⟨y, hy, rfl⟩, rfl⟩
  | bcopyin i off src n =>
    obtain ⟨x, hx⟩ := Option.isSome_iff_exists.1 hpre
    refine ⟨⟨rfl, x, hx, fun _ => hK _ _⟩, ?_⟩
    rintro ok _ (⟨hR, hok, rfl⟩ | ⟨hR, y, d, hy, rfl⟩)
    · exact ⟨c, Or.inl ⟨hR, hok, rfl⟩, rfl⟩
    · exact ⟨_, Or.inr ⟨hR, y, d, hy, rfl⟩, rfl⟩
  | bwrite i =>
    refine ⟨⟨rfl, hpre⟩, ?_⟩
    rintro ⟨⟩ _ ⟨y, hy, rfl⟩
    exact ⟨_, ⟨y, hy, rfl⟩, rfl⟩
  | brelse i =>
    refine ⟨⟨rfl, hpre⟩, ?_⟩
    rintro ⟨⟩ _ rfl
    exact ⟨_, rfl, rfl⟩
  | beginOp =>
    obtain ⟨hboot, hop⟩ := hpre
    refine ⟨⟨hboot, show (⟨c.op, none, .client⟩ : LogPart) = .idle by rw [hop]; rfl⟩, ?_⟩
    rintro ⟨⟩ _ rfl
    exact ⟨_, rfl, rfl⟩
  | ext e =>
    refine ⟨trivial, ?_⟩
    rintro r _ rfl
    exact ⟨c, rfl, rfl⟩

end Spec

/-- **A program that follows the protocol is safe on the machine.** -/
theorem compile_safe {E : Sig} {R : Rules} {start : Nat} (hK : ∀ b d, R.keeps b d) {α : Type}
    {m : Prog (Client (Fin NBUF) E) α} {Q : α → Session → Prop} {c : Session} (h : (protocol R E).wp m Q c) :
    (sections R E).wp (compile start m) (fun a ρ' => ∃ c', Q a c' ∧ ρ' = c'.toRes) c.toRes := by
  have hlog := (protocol R E).wp_interp (logC_spec start hK) h
  have hbio := (calls R E).wp_interp (e := id)
    (fun ρ o hpre => wp_mono (fun r ρ' hr => ⟨ρ', hr, rfl⟩) (bioC_spec ρ o hpre)) hlog
  refine wp_mono ?_ hbio
  rintro a _ ⟨ρ', hρ', rfl⟩
  exact hρ'

/-- The program of a process follows the protocol. -/
def Follows (R : Rules) {E : Sig} (m : Prog (Client (Fin NBUF) E) Unit) : Prop :=
  (protocol R E).wp m (fun _ _ => True) Session.start

namespace Protocol

/-! The rules for the calls, in front of the rest of a program. -/

variable {E : Sig} {R : Rules} {α : Type} {c : Session} {Q : α → Session → Prop} {i : Fin NBUF} {x : Held}

theorem bread {b : Nat} {f : Fin NBUF → Prog (Client (Fin NBUF) E) α} (hop : R.inOp → c.op.isSome)
    (h : ∀ i d, c.held i = none → (protocol R E).wp (f i) Q (c.hold i ⟨b, d, .safe⟩)) :
    (protocol R E).wp (Client.bread ROOTDEV b >>= f) Q c := by
  refine ⟨⟨rfl, hop⟩, ?_⟩
  rintro i _ ⟨d, hnone, rfl⟩
  exact h i d hnone

theorem bdata {f : Block → Prog (Client (Fin NBUF) E) α} (hx : c.held i = some x)
    (h : (protocol R E).wp (f x.data) Q c) : (protocol R E).wp (Client.bdata i >>= f) Q c := by
  refine ⟨show (c.held i).isSome by rw [hx]; rfl, ?_⟩
  rintro _ _ ⟨rfl, y, hy, rfl⟩
  cases hx.symm.trans hy
  exact h

variable {f : Unit → Prog (Client (Fin NBUF) E) α}

theorem bstore {d : Block} (hx : c.held i = some x) (h : (protocol R E).wp (f ()) Q (c.hold i ⟨x.blockno, d, .dirty⟩)) :
    (protocol R E).wp (Client.bstore i d >>= f) Q c := by
  refine ⟨show (c.held i).isSome by rw [hx]; rfl, ?_⟩
  rintro ⟨⟩ _ ⟨y, hy, rfl⟩
  cases hx.symm.trans hy
  exact h

theorem logWrite (hop : R.guarded ∨ c.op.isSome) (hx : c.held i = some x)
    (hsmall : R.bounded → ∀ S, c.op = some S → (insert x.blockno S).card ≤ MAXOPBLOCKS)
    (h : ∀ S, c.op = some S → (protocol R E).wp (f ()) Q (c.log i x S)) :
    (protocol R E).wp (Client.logWrite i >>= f) Q c := by
  refine ⟨⟨hop, x, hx, hsmall⟩, ?_⟩
  rintro ⟨⟩ _ ⟨y, S, hy, hS, rfl⟩
  cases hx.symm.trans hy
  exact h S hS

theorem brelse (hx : c.held i = some x)
    (hclean : R.tracked → x.status ≠ .dirty) (h : (protocol R E).wp (f ()) Q (c.release i)) :
    (protocol R E).wp (Client.brelse i >>= f) Q c := by
  refine ⟨⟨x, hx, hclean⟩, ?_⟩
  rintro ⟨⟩ _ rfl
  exact h

theorem beginOp (hR : R.booting = false) (hop : c.op = none) (h : (protocol R E).wp (f ()) Q ⟨some ∅, c.held⟩) :
    (protocol R E).wp (Client.beginOp >>= f) Q c := by
  refine ⟨⟨hR, hop⟩, ?_⟩
  rintro ⟨⟩ _ rfl
  exact h

end Protocol

/-! ### Operations that write whole blocks -/

/-- The given blocks are overwritten and logged. -/
def writeBlocks {H : Type} {E : Sig} : List (Nat × Block) → Prog (Client H E) Unit
  | [] => pure ()
  | (b, d) :: ws => do
      let i ← Client.bread ROOTDEV b
      Client.bstore i d
      Client.logWrite i
      Client.brelse i
      writeBlocks ws

def writeOp {H : Type} {E : Sig} (ws : List (Nat × Block)) : Prog (Client H E) Unit := do
  Client.beginOp
  writeBlocks ws
  Client.endOp

theorem wp_writeBlocks {R : Rules} {E : Sig} {ws : List (Nat × Block)} :
    ∀ {S : Finset Nat}, S.card + ws.length ≤ MAXOPBLOCKS →
      (protocol R E).wp (writeBlocks ws) (fun _ c => c.op.isSome ∧ ∀ i, c.held i = none) ⟨some S, fun _ => none⟩ := by
  induction ws with
  | nil => exact fun _ => ⟨rfl, fun _ => rfl⟩
  | cons w ws ih =>
    intro S hS
    rw [List.length_cons] at hS
    have hcard : (insert w.1 S).card + ws.length ≤ MAXOPBLOCKS := by
      have := Finset.card_insert_le w.1 S
      omega
    refine Protocol.bread (fun _ => rfl) fun i d hi => ?_
    refine Protocol.bstore Session.held_hold_self ?_
    refine Protocol.logWrite (Or.inr rfl) Session.held_hold_self (fun _ S' hS' => ?_) fun S' hS' => ?_
    · cases hS'
      exact le_trans (Nat.le_add_right ..) hcard
    · cases hS'
      refine Protocol.brelse Session.held_log_self (fun _ => nofun) ?_
      rw [Session.release_log, Session.hold_hold, Session.release_hold hi]
      exact ih hcard

theorem follows_writeOp {R : Rules} {E : Sig} (hR : R.booting = false) {ws : List (Nat × Block)}
    (hlen : ws.length ≤ MAXOPBLOCKS) : Follows R (writeOp ws : Prog (Client (Fin NBUF) E) Unit) := by
  refine Protocol.beginOp hR rfl ?_
  refine wp_seq (wp_writeBlocks (S := ∅) (by simpa using hlen)) fun _ c hc => ?_
  exact ⟨⟨hc.1, fun _ => hc.2⟩, fun _ _ _ => trivial⟩

/-- The given blocks are read, one after the other. -/
def readBlocks {H : Type} {E : Sig} : List Nat → Prog (Client H E) Unit
  | [] => pure ()
  | b :: bs => do
      let i ← Client.bread ROOTDEV b
      Client.brelse i
      readBlocks bs

theorem follows_readBlocks {R : Rules} {E : Sig} (hR : R.inOp = false) {bs : List Nat} :
    Follows R (readBlocks bs : Prog (Client (Fin NBUF) E) Unit) := by
  unfold Follows
  induction bs with
  | nil => trivial
  | cons b bs ih =>
    refine Protocol.bread (fun h => by rw [hR] at h; cases h) fun i d hi => ?_
    refine Protocol.brelse Session.held_hold_self (fun _ => nofun) ?_
    rw [Session.release_hold hi]
    exact ih

namespace Kernel

variable {P X : Type} [Procs P] {E : Sig} {R : Rules} {size : Nat}
  {ext : P → (e : E.Op) → X → Outcome X (E.Ret e)} {cond : Kernel P X → P → PrimOp E → Prop}

def noExt (_ : P) : (e : Sig.empty.Op) → Unit → Outcome Unit (Sig.empty.Ret e) := nofun

def bare (P : Type) [Procs P] (size : Nat) : Machine (Prim Sig.empty) P (Kernel P Unit) :=
  machine size noExt

/-- Processes about to run the given programs. -/
def serve (start : Nat) (s : Kernel P X) (clients : P → Prog (Client (Fin NBUF) E) Unit) :
    Conf (Prim E) P (Kernel P X) :=
  ⟨s, fun p => compile start (clients p)⟩

theorem reach_inv {start : Nat} {s : Kernel P X} {clients : P → Prog (Client (Fin NBUF) E) Unit}
    {c : Conf (Prim E) P (Kernel P X)} (hK : ∀ b d, R.keeps b d)
    (hcond : R.guarded → ∀ s p o, cond s p o → s.Guard p o) (hs : s.Inv R fun _ => Res.idle)
    (hclients : ∀ p, Follows R (clients p)) (hreach : (machine size ext).Reach cond (serve start s clients) c) :
    ∃ ρ, c.st.Inv R ρ ∧ ∀ p, (sections R E).wp (c.prog p) (fun _ _ => True) (ρ p) :=
  hreach.inv (sound size ext hcond) hs fun p =>
    wp_mono (fun _ _ _ => trivial) (compile_safe hK (hclients p))

end Kernel

end Xv6
