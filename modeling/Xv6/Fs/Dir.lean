import Xv6.Fs.Inode

/-! `fs.c`: directories and path names. Strings are lists of bytes without the final zero. -/

namespace Xv6

open Lib

/-! ### Strings -/

/-- `strncmp` of `string.c`; a string reads as zero past its end. -/
def strncmp : Nat → List UInt8 → List UInt8 → Int
  | 0, _, _ => 0
  | n + 1, p, q =>
      if p.headD 0 ≠ 0 ∧ p.headD 0 = q.headD 0 then strncmp n p.tail q.tail
      else (p.headD 0).toNat - (q.headD 0).toNat

/-- `strncpy` of `string.c`: `n` bytes, padded with zeros. -/
def strncpy : Nat → List UInt8 → List UInt8
  | 0, _ => []
  | n + 1, t => if t.headD 0 = 0 then List.replicate (n + 1) 0 else t.headD 0 :: strncpy n t.tail

def namecmp (s t : List UInt8) : Int := strncmp DIRSIZ s t

/-- The bytes of `struct dirent`. -/
def dirent (inum : Nat) (name : List UInt8) : List UInt8 :=
  [UInt8.ofNat inum, UInt8.ofNat (inum / 256)] ++ strncpy DIRSIZ name

def direntInum (de : List UInt8) : Nat := (de.getD 0 0).toNat + 256 * (de.getD 1 0).toNat

def direntName (de : List UInt8) : List UInt8 := de.drop 2

def slash : UInt8 := 47

/-- `skipelem`: the next path element and the rest of the path. -/
def skipelem (path : List UInt8) : Option (List UInt8 × List UInt8) :=
  let path := path.dropWhile (· == slash)
  if path = [] then none
  else some ((path.takeWhile (· != slash)).take DIRSIZ, (path.dropWhile (· != slash)).dropWhile (· == slash))

namespace Fs

variable {H : Type} {F : Sig} (sb : Superblock)

/-- The loop of `dirlookup` from offset `off` on: the inode and the offset of the entry. -/
def dirlookupFrom (dp : Fin NINODE) (n : Inode) (name : List UInt8) :
    Nat → Nat → FsM H F (Option (Fin NINODE × Nat))
  | 0, _ => pure none
  | fuel + 1, off =>
      if off < n.size.val then do
        let de ← readi sb dp .kernel off DIRENT
        if de.length ≠ DIRENT then panic "dirlookup read"
        else if direntInum de = 0 then dirlookupFrom dp n name fuel (off + DIRENT)
        else if namecmp name (direntName de) = 0 then
          let ip ← iget n.dev (direntInum de)
          pure (some (ip, off))
        else dirlookupFrom dp n name fuel (off + DIRENT)
      else pure none

def dirlookup (dp : Fin NINODE) (name : List UInt8) : FsM H F (Option (Fin NINODE × Nat)) := do
  let n ← iload dp
  if n.type ≠ T_DIR then panic "dirlookup not DIR"
  else dirlookupFrom sb dp n name (n.size.val + 1) 0

/-- The loop of `dirlink`: the offset of an empty entry, or the end of the directory. -/
def dirlinkFrom (dp : Fin NINODE) (n : Inode) : Nat → Nat → FsM H F Nat
  | 0, off => pure off
  | fuel + 1, off =>
      if off < n.size.val then do
        let de ← readi sb dp .kernel off DIRENT
        if de.length ≠ DIRENT then panic "dirlink read"
        else if direntInum de = 0 then pure off
        else dirlinkFrom dp n fuel (off + DIRENT)
      else pure off

/-- An entry in kernel memory. -/
def direntSrc (de : List UInt8) : Src := .kernel fun j => de.getD j 0

def dirlink (dp : Fin NINODE) (name : List UInt8) (inum : Nat) : FsM H F Int := do
  let found ← dirlookup sb dp name
  match found with
  | some (ip, _) => do
      iput sb ip
      pure (-1)
  | none => do
      let n ← iload dp
      let off ← dirlinkFrom sb dp n (n.size.val + 1) 0
      let r ← writei sb dp (direntSrc (dirent inum name)) off DIRENT
      if r ≠ DIRENT then panic "dirlink" else pure 0

/-- The loop of `namex`. Every path element is a byte at least, so that the length of the path bounds the
rounds. -/
def namexFrom (parent : Bool) :
    Nat → Fin NINODE → List UInt8 → List UInt8 → FsM H F (Option (Fin NINODE × List UInt8))
  | 0, ip, _, name => pure (some (ip, name))
  | fuel + 1, ip, path, name =>
      match skipelem path with
      | none =>
          if parent then do
            iput sb ip
            pure none
          else pure (some (ip, name))
      | some (name, path) => do
          ilock sb ip
          let n ← iload ip
          if n.type ≠ T_DIR then
            iunlockput sb ip
            pure none
          else if parent ∧ path = [] then
            iunlock ip
            pure (some (ip, name))
          else
            let found ← dirlookup sb ip name
            match found with
            | none => do
                iunlockput sb ip
                pure none
            | some (next, _) => do
                iunlockput sb ip
                namexFrom parent fuel next path name

/-- `namex`, for a process whose current directory is `cwd`: the inode and the last element of the path. -/
def namex (cwd : Fin NINODE) (path : List UInt8) (parent : Bool) :
    FsM H F (Option (Fin NINODE × List UInt8)) := do
  if path.headD 0 = slash then
    let ip ← iget ROOTDEV ROOTINO
    namexFrom sb parent (path.length + 1) ip path []
  else
    idup cwd
    namexFrom sb parent (path.length + 1) cwd path []

def namei (cwd : Fin NINODE) (path : List UInt8) : FsM H F (Option (Fin NINODE)) := do
  let r ← namex sb cwd path false
  pure (r.map Prod.fst)

def nameiparent (cwd : Fin NINODE) (path : List UInt8) : FsM H F (Option (Fin NINODE × List UInt8)) :=
  namex sb cwd path true

end Fs

end Xv6
