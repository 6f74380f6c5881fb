import Xv6.Fs.Interface

/-! `fs.c`: blocks, inodes and the contents of inodes. The machine has one disk: `ROOTDEV` stands for every
`dev` in a call to `bread`. -/

namespace Xv6

open Lib

namespace Fs

variable {H : Type} {F : Sig} (sb : Superblock)

open Client

/-! ### Blocks -/

def bzero (bno : Nat) : FsM H F Unit := do
  let bp ← bread ROOTDEV bno
  bstore bp Block.zero
  logWrite bp
  brelse bp

/-- The inner loop of `balloc`: the first free bit of the block of the map that starts at block `b`. -/
@[irreducible] def freeBit (b : Nat) (d : Block) : Option Nat :=
  (List.range BPB).find? fun bi => decide (b + bi < sb.size) && !d.bit bi

variable {sb} in
theorem freeBit_some {b bi : Nat} {d : Block} (h : freeBit sb b d = some bi) :
    bi < BPB ∧ b + bi < sb.size ∧ d.bit bi = false := by
  unfold freeBit at h
  have hmem := List.mem_of_find?_eq_some h
  have hbit := List.find?_some h
  simp only [Bool.and_eq_true, decide_eq_true_eq, Bool.not_eq_true'] at hbit
  exact ⟨List.mem_range.1 hmem, hbit⟩

def ballocFrom : Nat → Nat → FsM H F Uint
  | 0, _ => panic "balloc: out of blocks"
  | fuel + 1, b =>
      if b < sb.size then do
        let bp ← bread ROOTDEV (sb.bblock b)
        let d ← bdata bp
        match freeBit sb b d with
        | some bi => do
            bstore bp (d.setBit bi)
            logWrite bp
            brelse bp
            bzero (b + bi)
            pure (Uint.of (b + bi))
        | none => do
            brelse bp
            ballocFrom fuel (b + BPB)
      else panic "balloc: out of blocks"

def balloc : FsM H F Uint := ballocFrom sb (sb.size + 1) 0

def bfree (b : Nat) : FsM H F Unit := do
  let bp ← bread ROOTDEV (sb.bblock b)
  let d ← bdata bp
  if d.bit (b % BPB) then
    bstore bp (d.clearBit (b % BPB))
    logWrite bp
    brelse bp
  else panic "freeing free block"

/-! ### Inodes -/

def iallocFrom (dev : Nat) (type : Short) : Nat → Nat → FsM H F (Fin NINODE)
  | 0, _ => panic "ialloc: no inodes"
  | fuel + 1, inum =>
      if inum < sb.ninodes then do
        let bp ← bread ROOTDEV (sb.iblock inum)
        let d ← bdata bp
        if (d.getInode (inum % IPB)).type = 0 then
          bstore bp (d.putInode (inum % IPB) { Dinode.zero with type := type })
          logWrite bp
          brelse bp
          iget dev inum
        else
          brelse bp
          iallocFrom dev type fuel (inum + 1)
      else panic "ialloc: no inodes"

def ialloc (dev : Nat) (type : Short) : FsM H F (Fin NINODE) :=
  iallocFrom sb dev type (sb.ninodes + 1) 1

def iupdate (ip : Fin NINODE) : FsM H F Unit := do
  let n ← iload ip
  let bp ← bread ROOTDEV (sb.iblock n.inum)
  let d ← bdata bp
  bstore bp (d.putInode (n.inum % IPB) n.toDinode)
  logWrite bp
  brelse bp

/-- What `ilock` does once it has the sleep lock. -/
def fetch (ip : Fin NINODE) : FsM H F Unit := do
  let n ← iload ip
  if n.valid then pure ()
  else
    let bp ← bread ROOTDEV (sb.iblock n.inum)
    let d ← bdata bp
    istore ip (d.getInode (n.inum % IPB))
    brelse bp
    setValid ip true
    let n ← iload ip
    if n.type = 0 then panic "ilock: no type" else pure ()

def ilock (ip : Fin NINODE) : FsM H F Unit := do
  let ref ← iref ip
  if ref < 1 then panic "ilock"
  else
    acquiresleep ip
    fetch sb ip

/-! ### The blocks of an inode -/

/-- `bmap` gives `addrs[j]` a new block. -/
def newAddr (ip : Fin NINODE) (j : Nat) : FsM H F Uint := do
  let a ← balloc sb
  let n ← iload ip
  istore ip (n.setAddr j a)
  pure a

/-- `bmap` gives entry `k` of the indirect block `d` a new block. -/
def newEntry (bp : H) (k : Nat) (d : Block) : FsM H F Uint := do
  let a ← balloc sb
  bstore bp (d.setEntry k a)
  logWrite bp
  brelse bp
  pure a

/-- The indirect block, which may be new. -/
def bmapIndirect (ip : Fin NINODE) (n : Inode) : FsM H F Uint :=
  if n.addr NDIRECT = 0 then newAddr sb ip NDIRECT else pure (Uint.of (n.addr NDIRECT))

/-- An entry of the indirect block, which may be new. -/
def bmapEntry (b k : Nat) : FsM H F Uint := do
  let bp ← bread ROOTDEV b
  let d ← bdata bp
  if d.entry k = 0 then newEntry sb bp k d
  else
    brelse bp
    pure (d.entry k)

def bmap (ip : Fin NINODE) (bn : Nat) : FsM H F Uint := do
  let n ← iload ip
  if bn < NDIRECT then if n.addr bn = 0 then newAddr sb ip bn else pure (Uint.of (n.addr bn))
  else if bn - NDIRECT < NINDIRECT then
    let addr ← bmapIndirect sb ip n
    bmapEntry sb addr.val (bn - NDIRECT)
  else panic "bmap: out of range"

/-- The first loop of `itrunc`, over the given direct blocks. -/
def itruncDirect (ip : Fin NINODE) : List Nat → FsM H F Unit
  | [] => pure ()
  | i :: is => do
      let n ← iload ip
      if n.addr i ≠ 0 then
        bfree sb (n.addr i)
        istore ip (n.setAddr i 0)
        itruncDirect ip is
      else itruncDirect ip is

/-- The second loop of `itrunc`, over the entries of the indirect block. -/
def bfreeEntries : List Uint → FsM H F Unit
  | [] => pure ()
  | a :: as =>
      if a ≠ 0 then do
        bfree sb a.val
        bfreeEntries as
      else bfreeEntries as

def itruncIndirect (ip : Fin NINODE) : FsM H F Unit := do
  let n ← iload ip
  if n.addr NDIRECT ≠ 0 then
    let bp ← bread ROOTDEV (n.addr NDIRECT)
    let d ← bdata bp
    bfreeEntries sb ((List.range NINDIRECT).map d.entry)
    brelse bp
    bfree sb (n.addr NDIRECT)
    istore ip (n.setAddr NDIRECT 0)
  else pure ()

def itrunc (ip : Fin NINODE) : FsM H F Unit := do
  itruncDirect sb ip (List.range NDIRECT)
  itruncIndirect sb ip
  let n ← iload ip
  istore ip { n.toDinode with size := 0 }
  iupdate sb ip

/-- `iput` once it has found the last reference to an inode without links. -/
def ifree (ip : Fin NINODE) : FsM H F Unit := do
  itrunc sb ip
  let n ← iload ip
  istore ip { n.toDinode with type := 0 }
  iupdate sb ip
  setValid ip false
  releasesleep ip
  iputDrop ip

def iput (ip : Fin NINODE) : FsM H F Unit := do
  let last ← iputLast ip
  if last then ifree sb ip else pure ()

def iunlockput (ip : Fin NINODE) : FsM H F Unit := do
  iunlock ip
  iput sb ip

/-! ### The content of an inode -/

/-- The loop of `readi`. Each round copies a byte at least, so that `n` bounds the rounds. The bytes
copied are returned, `tot` of them, and those that a failing copy has stored after them. -/
def readiFrom (ip : Fin NINODE) (n : Nat) : Nat → Dst → Nat → Nat → List UInt8 → FsM H F (List UInt8 × List UInt8)
  | 0, _, _, _, acc => pure (acc, [])
  | fuel + 1, dst, tot, off, acc =>
      if tot < n then do
        let addr ← bmap sb ip (off / BSIZE)
        let bp ← bread ROOTDEV addr.val
        let d ← bdata bp
        let m := min (n - tot) (BSIZE - off % BSIZE)
        let bytes := (List.range m).map fun j => d.get (off % BSIZE + j)
        if eitherCopyout dst m then
          brelse bp
          readiFrom ip n fuel (dst.add m) (tot + m) (off + m) (acc ++ bytes)
        else
          brelse bp
          pure (acc, bytes.take (dst.stored m))
      else pure (acc, [])

/-- `readi`, with all the bytes that it stores. -/
def readiStored (ip : Fin NINODE) (dst : Dst) (off n : Nat) : FsM H F (List UInt8 × List UInt8) := do
  let i ← iload ip
  if off > i.size.val ∨ (off + n) % 2 ^ 32 < off then pure ([], [])
  else
    let n := if off + n > i.size.val then i.size.val - off else n
    readiFrom sb ip n n dst 0 off []

/-- `readi`, with the bytes that it counts. -/
def readi (ip : Fin NINODE) (dst : Dst) (off n : Nat) : FsM H F (List UInt8) := do
  let r ← readiStored sb ip dst off n
  pure r.1

/-- The loop of `writei`. The offset it ends with is returned. -/
def writeiFrom (ip : Fin NINODE) (n : Nat) : Nat → Src → Nat → Nat → FsM H F Nat
  | 0, _, _, off => pure off
  | fuel + 1, src, tot, off =>
      if tot < n then do
        let addr ← bmap sb ip (off / BSIZE)
        let bp ← bread ROOTDEV addr.val
        let m := min (n - tot) (BSIZE - off % BSIZE)
        let ok ← bcopyin bp (off % BSIZE) src m
        if ok then
          logWrite bp
          brelse bp
          writeiFrom ip n fuel (src.add m) (tot + m) (off + m)
        else
          brelse bp
          pure off
      else pure off

def writei (ip : Fin NINODE) (src : Src) (off n : Nat) : FsM H F Int := do
  let i ← iload ip
  if off > i.size.val ∨ (off + n) % 2 ^ 32 < off then pure (-1)
  else if off + n > MAXFILE * BSIZE then pure (-1)
  else
    let off ← writeiFrom sb ip n n src 0 off
    if 0 < n then
      let i ← iload ip
      (if off > i.size.val then istore ip { i.toDinode with size := Uint.of off }
        else pure () : FsM H F Unit)
      iupdate sb ip
      pure n
    else pure n

end Fs

end Xv6
