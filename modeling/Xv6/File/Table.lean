import Xv6.Lib.Machine
import Xv6.Param

/-! `file.c`, and the parts of `pipe.c`, `sysfile.c`, `proc.c` and `kalloc.c` that take and drop references to open
files: the file table, the descriptors of all processes, the pages of pipes and the free list. One operation is a
section under a lock, or the access of a process to what only it uses. What inodes and paths are is left out: `open`
is told what it finds. -/

namespace Xv6

open Lib Function

namespace Files

inductive FdType where
  | none
  | pipe
  | inode
  | device
  deriving DecidableEq

structure File where
  type : FdType
  ref : Nat
  readable : Bool
  writable : Bool
  pipe : Nat
  deriving DecidableEq

/-- The state of a slot of `proc`; `embryo` is a child that `fork` has not finished. -/
inductive Status where
  | unused
  | embryo
  | running
  | zombie
  deriving DecidableEq

/-- The calls of a process. -/
inductive Kind where
  | idle
  | open
  | pipe
  | dup
  | close
  | fork
  | exit
  | other
  deriving DecidableEq

abbrev FileId := Fin NFILE

abbrev Slots := Fin NOFILE → Option FileId

/-- What is only recorded of a process: whether it runs, the call it is in and its descriptors when that call began,
the references that it was given and did not give back, the files that it allocated and did not fill in, the pages that
it has from `kalloc` or is about to free, the end of a pipe that it is closing, the pipe that it reads or writes,
and the child of its `fork`. -/
structure Local (P : Type) where
  active : Bool
  call : Kind
  entry : Slots
  given : FileId → Nat
  fresh : List FileId
  carried : List Nat
  closing : Option (Nat × Bool)
  inside : Option Nat
  kid : Option P

/-- A call that returned, with the descriptors before and after it. -/
structure Return where
  call : Kind
  result : Int
  before : Slots
  after : Slots

end Files

/-- `ftable`, `ofile[]` and `state` of every process, `readopen` and `writeopen` of every page and the free list.
`others` are the pages that the rest of the kernel uses. `live` tells which pages are pipes. -/
structure Files (P : Type) where
  file : Files.FileId → Files.File
  ofile : P → Files.Slots
  status : P → Files.Status
  isopen : Nat → Bool → Bool
  freelist : List Nat
  others : List Nat
  live : Nat → Bool
  loc : P → Files.Local P
  returns : List Files.Return

namespace Files

inductive FileOp (P : Type) where
  | begin
  | enterCall (k : Kind)
  | leaveCall (r : Int)
  | slot (fd : Fin NOFILE)
  | setSlot (fd : Fin NOFILE) (f : FileId)
  | clearSlot (fd : Fin NOFILE)
  | filealloc
  | filedup (f : FileId)
  | fileclose (f : FileId)
  | pipeclose (pi : Nat) (writable : Bool)
  | kalloc
  | kfree (pi : Nat)
  | install (f0 f1 : FileId) (pi : Nat)
  | fill (f : FileId) (device readable writable : Bool)
  | look (f : FileId)
  | access (pi : Nat)
  | leave
  | allocproc (np : P)
  | freeproc
  | setChild (fd : Fin NOFILE) (f : FileId)
  | start
  | zombie
  | reap (q : P)
  | take
  | give (i : Nat)

/-- `begin` waits until a child has been started. `fileclose` is its section under `ftable.lock`, with the file if the
reference was the last one, and `pipeclose` the one under `pi->lock`, with whether the page is to be freed. `install`
and `fill` set the fields of new files, `look` reads the fields of a file in `fileread` and `filewrite`, and `access`
is a section of `piperead` or `pipewrite`. `setChild` is `np->ofile[i] = f`. `take` and `give` are `kalloc` and
`kfree` elsewhere in the kernel. -/
def FileSig (P : Type) : Sig where
  Op := FileOp P
  Ret
    | .slot _ => Option FileId
    | .filealloc => Option FileId
    | .fileclose _ => Option File
    | .pipeclose .. => Bool
    | .kalloc => Option Nat
    | .look _ => File
    | .allocproc _ => Bool
    | _ => Unit

section Sections

variable {P : Type} [DecidableEq P]

/-- What is recorded of a process is changed. -/
def note (p : P) (g : Local P → Local P) (s : Files P) : Files P :=
  { s with loc := update s.loc p (g (s.loc p)) }

def setFile (f : FileId) (x : File) (s : Files P) : Files P := { s with file := update s.file f x }

/-- A process has one reference more. -/
def Local.gain (l : Local P) (f : FileId) : Local P := { l with given := update l.given f (l.given f + 1) }

def Local.lose (l : Local P) (f : FileId) : Local P := { l with given := update l.given f (l.given f - 1) }

def unusedFile (s : Files P) : Option FileId := (List.finRange NFILE).find? fun f => (s.file f).ref = 0

def filealloc (p : P) (s : Files P) : Outcome (Files P) (Option FileId) :=
  match s.unusedFile with
  | none => .ok none s
  | some f => .ok (some f) (note p (fun l => { l.gain f with fresh := f :: l.fresh })
      (setFile f { s.file f with ref := 1 } s))

def filedup (p : P) (f : FileId) (s : Files P) : Outcome (Files P) Unit :=
  if (s.file f).ref < 1 then .panic "filedup"
  else .ok () (note p (·.gain f) (setFile f { s.file f with ref := (s.file f).ref + 1 } s))

/-- The end of a pipe that a file is. -/
def File.endOf (x : File) : Option (Nat × Bool) := if x.type = .pipe then some (x.pipe, x.writable) else none

def fileclose (p : P) (f : FileId) (s : Files P) : Outcome (Files P) (Option File) :=
  if (s.file f).ref < 1 then .panic "fileclose"
  else if (s.file f).ref - 1 > 0 then
    .ok none (note p (fun l => { l.lose f with fresh := l.fresh.erase f })
      (setFile f { s.file f with ref := (s.file f).ref - 1 } s))
  else
    .ok (some (s.file f)) (note p (fun l => { l.lose f with fresh := l.fresh.erase f, closing := (s.file f).endOf })
      (setFile f { s.file f with ref := 0, type := .none } s))

def setClosed (pi : Nat) (writable : Bool) (s : Files P) : Files P :=
  { s with isopen := update s.isopen pi (update (s.isopen pi) writable false) }

def pipeclose (p : P) (pi : Nat) (writable : Bool) (s : Files P) : Outcome (Files P) Bool :=
  let s := setClosed pi writable s
  if s.isopen pi false = false ∧ s.isopen pi true = false then
    .ok true (note p (fun l => { l with closing := none, carried := pi :: l.carried })
      { s with live := update s.live pi false })
  else .ok false (note p (fun l => { l with closing := none }) s)

/-- `kalloc` and `kfree` fill the page with a byte that is not 0. -/
def junk (pi : Nat) (s : Files P) : Files P := { s with isopen := update s.isopen pi fun _ => true }

def kalloc (p : P) (s : Files P) : Outcome (Files P) (Option Nat) :=
  match s.freelist with
  | [] => .ok none s
  | r :: l => .ok (some r) (note p (fun l => { l with carried := r :: l.carried }) (junk r { s with freelist := l }))

def kfree (p : P) (pi : Nat) (s : Files P) : Files P :=
  note p (fun l => { l with carried := l.carried.erase pi }) (junk pi { s with freelist := pi :: s.freelist })

def install (p : P) (f0 f1 : FileId) (pi : Nat) (s : Files P) : Files P :=
  note p (fun l => { l with fresh := (l.fresh.erase f0).erase f1, carried := l.carried.erase pi })
    (setFile f1 { s.file f1 with type := .pipe, readable := false, writable := true, pipe := pi }
      (setFile f0 { s.file f0 with type := .pipe, readable := true, writable := false, pipe := pi }
        { s with
          isopen := update s.isopen pi fun _ => true
          live := update s.live pi true }))

def setChild (p np : P) (fd : Fin NOFILE) (f : FileId) (s : Files P) : Files P :=
  note np (·.gain f) (note p (·.lose f)
    { s with ofile := update s.ofile np (update (s.ofile np) fd (some f)) })

/-- What is recorded of a process at the start of its life. -/
def Local.rest (l : Local P) (active : Bool) : Local P := { l with
  active := active
  call := .idle
  entry := fun _ => none
  fresh := []
  carried := []
  closing := none
  inside := none
  kid := none }

def exec (p : P) : (o : FileOp P) → Files P → Outcome (Files P) ((FileSig P).Ret o)
  | .begin, s =>
      if s.status p = .running ∧ (s.loc p).active = false then .ok () (note p (·.rest true) s) else .block
  | .enterCall k, s => .ok () (note p (fun l => { l with call := k, entry := s.ofile p }) s)
  | .leaveCall r, s => .ok () (note p (fun l => { l with call := .idle })
      { s with returns := ⟨(s.loc p).call, r, (s.loc p).entry, s.ofile p⟩ :: s.returns })
  | .slot fd, s => .ok (s.ofile p fd) s
  | .setSlot fd f, s =>
      .ok () { s with ofile := update s.ofile p (update (s.ofile p) fd (some f)) }
  | .clearSlot fd, s =>
      .ok () { s with ofile := update s.ofile p (update (s.ofile p) fd none) }
  | .filealloc, s => filealloc p s
  | .filedup f, s => filedup p f s
  | .fileclose f, s => fileclose p f s
  | .pipeclose pi writable, s => pipeclose p pi writable s
  | .kalloc, s => kalloc p s
  | .kfree pi, s => .ok () (kfree p pi s)
  | .install f0 f1 pi, s => .ok () (install p f0 f1 pi s)
  | .fill f device readable writable, s =>
      .ok () (note p (fun l => { l with fresh := l.fresh.erase f })
        (setFile f { s.file f with type := if device then .device else .inode, readable, writable } s))
  | .look f, s => .ok (s.file f) (note p (fun l => { l with inside := (s.file f).endOf.map Prod.fst }) s)
  | .access _, s => .ok () s
  | .leave, s => .ok () (note p (fun l => { l with inside := none }) s)
  | .allocproc np, s =>
      if s.status np = .unused then
        .ok true (note p (fun l => { l with kid := some np })
          { s with status := update s.status np .embryo })
      else .ok false s
  | .freeproc, s => match (s.loc p).kid with
    | none => .block
    | some np => .ok () (note p (fun l => { l with kid := none })
        { s with status := update s.status np .unused })
  | .setChild fd f, s => match (s.loc p).kid with
    | none => .block
    | some np => .ok () (setChild p np fd f s)
  | .start, s => match (s.loc p).kid with
    | none => .block
    | some np => .ok () (note p (fun l => { l with kid := none })
        { s with status := update s.status np .running })
  | .zombie, s => .ok () (note p (·.rest false) { s with status := update s.status p .zombie })
  | .reap q, s =>
      if s.status q = .zombie then .ok () { s with status := update s.status q .unused } else .block
  | .take, s => match s.freelist with
    | [] => .ok () s
    | r :: l => .ok () (junk r { s with freelist := l, others := r :: s.others })
  | .give i, s => match s.others[i]? with
    | none => .block
    | some r => .ok () (junk r { s with freelist := r :: s.freelist, others := s.others.erase r })

def machine : Machine (FileSig P) P (Files P) := ⟨exec⟩

end Sections

/-! ### The code -/

section Code

variable {P : Type}

def op (o : FileOp P) : Prog (FileSig P) ((FileSig P).Ret o) := Prog.op (S := FileSig P) o

def getSlot (fd : Fin NOFILE) : Prog (FileSig P) (Option FileId) := op (.slot fd)

/-- The loop of `fdalloc` over the descriptors `fds`. -/
def fdallocFrom (f : FileId) : List (Fin NOFILE) → Prog (FileSig P) (Option (Fin NOFILE))
  | [] => pure none
  | fd :: fds => do
      let slot ← getSlot fd
      match slot with
      | none => do
          op (.setSlot fd f)
          pure (some fd)
      | some _ => fdallocFrom f fds

/-- `fdalloc`, with nothing for -1. -/
def fdalloc (f : FileId) : Prog (FileSig P) (Option (Fin NOFILE)) := fdallocFrom f (List.finRange NOFILE)

def closeEnd (pi : Nat) (writable : Bool) : Prog (FileSig P) Bool := op (.pipeclose pi writable)

/-- `pipeclose` and the `kfree` after it. -/
def pipecloseFree (pi : Nat) (writable : Bool) : Prog (FileSig P) Unit := do
  let last ← closeEnd pi writable
  if last then op (.kfree pi) else pure ()

def dropFile (f : FileId) : Prog (FileSig P) (Option File) := op (.fileclose f)

/-- `fileclose`; `iput` of a file that is not a pipe is left out. -/
def closeFile (f : FileId) : Prog (FileSig P) Unit := do
  let ff ← dropFile f
  match ff with
  | none => pure ()
  | some ff => if ff.type = .pipe then pipecloseFree ff.pipe ff.writable else pure ()

def allocFile : Prog (FileSig P) (Option FileId) := op .filealloc

def allocPage : Prog (FileSig P) (Option Nat) := op .kalloc

/-- `pipealloc` with both files. -/
def pipeallocPage (f0 f1 : FileId) : Prog (FileSig P) (Option (FileId × FileId)) := do
  let pi ← allocPage
  match pi with
  | none => do
      closeFile f0
      closeFile f1
      pure none
  | some pi => do
      op (.install f0 f1 pi)
      pure (some (f0, f1))

def pipealloc : Prog (FileSig P) (Option (FileId × FileId)) := do
  let f0 ← allocFile
  match f0 with
  | none => pure none
  | some f0 => do
      let f1 ← allocFile
      match f1 with
      | none => do
          closeFile f0
          pure none
      | some f1 => pipeallocPage f0 f1

def sysDup (fd : Fin NOFILE) : Prog (FileSig P) Int := do
  let f ← getSlot fd
  match f with
  | none => pure (-1)
  | some f => do
      let fd' ← fdalloc f
      match fd' with
      | none => pure (-1)
      | some fd' => do
          op (.filedup f)
          pure fd'

def sysClose (fd : Fin NOFILE) : Prog (FileSig P) Int := do
  let f ← getSlot fd
  match f with
  | none => pure (-1)
  | some f => do
      op (.clearSlot fd)
      closeFile f
      pure 0

/-- `sys_pipe`. `copied` tells whether the two `copyout`s succeed. -/
def sysPipe (copied : Bool) : Prog (FileSig P) Int := do
  let files ← pipealloc
  match files with
  | none => pure (-1)
  | some (rf, wf) => do
      let fd0 ← fdalloc rf
      match fd0 with
      | none => do
          closeFile rf
          closeFile wf
          pure (-1)
      | some fd0 => do
          let fd1 ← fdalloc wf
          match fd1 with
          | none => do
              op (.clearSlot fd0)
              closeFile rf
              closeFile wf
              pure (-1)
          | some fd1 =>
              if copied then pure 0
              else do
                op (.clearSlot fd0)
                op (.clearSlot fd1)
                closeFile rf
                closeFile wf
                pure (-1)

/-- `sys_open`. `found` tells whether the file is a device, if the path leads to one that may be opened. -/
def sysOpen (found : Option Bool) (readable writable : Bool) : Prog (FileSig P) Int := do
  match found with
  | none => pure (-1)
  | some device => do
      let f ← allocFile
      match f with
      | none => pure (-1)
      | some f => do
          let fd ← fdalloc f
          match fd with
          | none => do
              closeFile f
              pure (-1)
          | some fd => do
              op (.fill f device readable writable)
              pure fd

def lookFile (f : FileId) : Prog (FileSig P) File := op (.look f)

/-- `fileread` and `filewrite`: `n` sections in `piperead` or `pipewrite`. -/
def sysTransfer (fd : Fin NOFILE) (write : Bool) (n : Nat) : Prog (FileSig P) Int := do
  let f ← getSlot fd
  match f with
  | none => pure (-1)
  | some f => do
      let x ← lookFile f
      if x.type = .pipe ∧ (if write then x.writable else x.readable) then
        accesses x.pipe n
      op .leave
      pure 0
where
  accesses (pi : Nat) : Nat → Prog (FileSig P) Unit
    | 0 => pure ()
    | n + 1 => do
        op (.access pi)
        accesses pi n

def forkFiles : List (Fin NOFILE) → Prog (FileSig P) Unit
  | [] => pure ()
  | fd :: fds => do
      let f ← getSlot fd
      match f with
      | none => forkFiles fds
      | some f => do
          op (.filedup f)
          op (.setChild fd f)
          forkFiles fds

def takeProc (np : P) : Prog (FileSig P) Bool := op (.allocproc np)

/-- `fork` into the slot `np`. `copied` tells whether `uvmcopy` succeeds. -/
def fork (np : P) (copied : Bool) : Prog (FileSig P) Int := do
  let found ← takeProc np
  if found then
    if copied then do
      forkFiles (List.finRange NOFILE)
      op .start
      pure 0
    else do
      op .freeproc
      pure (-1)
  else pure (-1)

def exitFiles : List (Fin NOFILE) → Prog (FileSig P) Unit
  | [] => pure ()
  | fd :: fds => do
      let f ← getSlot fd
      match f with
      | none => exitFiles fds
      | some f => do
          closeFile f
          op (.clearSlot fd)
          exitFiles fds

def exit : Prog (FileSig P) Unit := do
  op (.enterCall .exit)
  exitFiles (List.finRange NOFILE)
  op .zombie

/-- The calls of a process, with what the rest of the kernel does in them. -/
inductive Call (P : Type) where
  | open (found : Option Bool) (readable writable : Bool)
  | pipe (copied : Bool)
  | dup (fd : Fin NOFILE)
  | close (fd : Fin NOFILE)
  | transfer (fd : Fin NOFILE) (write : Bool) (n : Nat)
  | fork (np : P) (copied : Bool)
  | reap (q : P)
  | take
  | give (i : Nat)

def Call.kind : Call P → Kind
  | .open .. => .open
  | .pipe _ => .pipe
  | .dup _ => .dup
  | .close _ => .close
  | .fork .. => .fork
  | _ => .other

def Call.body : Call P → Prog (FileSig P) Int
  | .open found readable writable => sysOpen found readable writable
  | .pipe copied => sysPipe copied
  | .dup fd => sysDup fd
  | .close fd => sysClose fd
  | .transfer fd write n => sysTransfer fd write n
  | .fork np copied => Files.fork np copied
  | .reap q => do
      op (.reap q)
      pure 0
  | .take => do
      op .take
      pure 0
  | .give i => do
      op (.give i)
      pure 0

def Call.run (c : Call P) : Prog (FileSig P) Unit := do
  op (.enterCall c.kind)
  let r ← c.body
  op (.leaveCall r)

def runAll : List (Call P) → Prog (FileSig P) Unit
  | [] => pure ()
  | c :: cs => do
      c.run
      runAll cs

/-- The processes that use one slot of `proc`, one after another. -/
def lives : List (List (Call P)) → Prog (FileSig P) Unit
  | [] => pure ()
  | cs :: rest => do
      op .begin
      runAll cs
      exit
      lives rest

/-- After `kinit`, which frees `npages` pages from the lowest one on, and `userinit`. -/
def init [DecidableEq P] (first : P) (npages : Nat) : Files P where
  file _ := ⟨.none, 0, false, false, 0⟩
  ofile _ _ := none
  status p := if p = first then .running else .unused
  isopen _ _ := false
  freelist := (List.range npages).reverse
  others := []
  live _ := false
  loc _ := ⟨false, .idle, fun _ => none, fun _ => 0, [], [], none, none, none⟩
  returns := []

end Code

end Files

end Xv6
