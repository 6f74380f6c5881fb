import Xv6.Fs.Dir

/-! `sysfile.c` and `file.c`: the system calls on files, over the table of open files and the open files
and current directory of the process. Arguments are those the calls fetch from user space; a string that
`argstr` cannot fetch is `none`. Pipes and devices touch neither inodes nor buffers: what a call does
with one is a single operation. -/

namespace Xv6

open Lib

inductive FileType where
  | none
  | pipe
  | inode
  | device
  deriving DecidableEq

/-- `struct file`, without its reference count and the pipe. -/
structure File where
  type : FileType
  readable : Bool
  writable : Bool
  ip : Fin NINODE
  off : Uint
  major : Short

inductive FileOp where
  | filealloc
  | filedup (f : Fin NFILE)
  | fileput (f : Fin NFILE)
  | fload (f : Fin NFILE)
  | fstore (f : Fin NFILE) (v : File)
  | ofile (fd : Nat)
  | setOfile (fd : Nat) (f : Option (Fin NFILE))
  | cwd
  | setCwd (ip : Fin NINODE)
  | chario

/-- `fileput` is the section of `fileclose` under `ftable.lock`: it gives the file if its last reference is
gone. `chario` is a call to a pipe or a device. -/
def FileSig : Sig where
  Op := FileOp
  Ret
    | .filealloc => Option (Fin NFILE)
    | .fileput _ => Option File
    | .fload _ => File
    | .ofile _ => Option (Fin NFILE)
    | .cwd => Fin NINODE
    | .chario => Int
    | _ => Unit

def O_WRONLY : Nat := 0x001
def O_RDWR : Nat := 0x002
def O_CREATE : Nat := 0x200
def O_TRUNC : Nat := 0x400

def STAT : Nat := 24

/-- The most bytes that `filewrite` passes to `writei`. -/
def CHUNK : Nat := (MAXOPBLOCKS - 1 - 1 - 2) / 2 * BSIZE

namespace Fs

variable {H : Type}

def filealloc : FsM H FileSig (Option (Fin NFILE)) := more (F := FileSig) .filealloc
def filedup (f : Fin NFILE) : FsM H FileSig Unit := more (F := FileSig) (.filedup f)
def fileput (f : Fin NFILE) : FsM H FileSig (Option File) := more (F := FileSig) (.fileput f)
def fload (f : Fin NFILE) : FsM H FileSig File := more (F := FileSig) (.fload f)
def fstore (f : Fin NFILE) (v : File) : FsM H FileSig Unit := more (F := FileSig) (.fstore f v)
def ofile (fd : Nat) : FsM H FileSig (Option (Fin NFILE)) := more (F := FileSig) (.ofile fd)
def setOfile (fd : Nat) (f : Option (Fin NFILE)) : FsM H FileSig Unit :=
  more (F := FileSig) (.setOfile fd f)
def getCwd : FsM H FileSig (Fin NINODE) := more (F := FileSig) .cwd
def setCwd (ip : Fin NINODE) : FsM H FileSig Unit := more (F := FileSig) (.setCwd ip)
def chario : FsM H FileSig Int := more (F := FileSig) .chario

open Client

variable (sb : Superblock)

section Namespace

variable {F : Sig}

/-- `return -1`, in an operation. -/
def fail : FsM H F Int := do
  endOp
  pure (-1)

def putFail (ip : Fin NINODE) : FsM H F Int := do
  iunlockput sb ip
  fail

/-- `sys_link` after `bad`. -/
def linkBad (ip : Fin NINODE) : FsM H F Int := do
  ilock sb ip
  let n ← iload ip
  istore ip { n.toDinode with nlink := n.nlink - 1 }
  iupdate sb ip
  putFail sb ip

def linkDone (dp ip : Fin NINODE) : FsM H F Int := do
  iunlockput sb dp
  iput sb ip
  endOp
  pure 0

/-- `sys_link` once the count of links has been raised. -/
def linkTo (cwd ip : Fin NINODE) (n : Inode) (new : List UInt8) : FsM H F Int := do
  let found ← nameiparent sb cwd new
  match found with
  | none => linkBad sb ip
  | some (dp, name) => do
      ilock sb dp
      let d ← iload dp
      if d.dev ≠ n.dev then
        iunlockput sb dp
        linkBad sb ip
      else
        let r ← dirlink sb dp name n.inum
        if r < 0 then
          iunlockput sb dp
          linkBad sb ip
        else linkDone sb dp ip

/-- `sys_link` after `begin_op`. -/
def linkFrom (cwd : Fin NINODE) (old new : List UInt8) : FsM H F Int := do
  let found ← namei sb cwd old
  match found with
  | none => fail
  | some ip => do
      ilock sb ip
      let n ← iload ip
      if n.type = T_DIR then putFail sb ip
      else
        istore ip { n.toDinode with nlink := n.nlink + 1 }
        iupdate sb ip
        iunlock ip
        linkTo sb cwd ip n new

/-- `sys_link` after its arguments, for a process whose current directory is `cwd`. -/
def sysLink (cwd : Fin NINODE) (old new : List UInt8) : FsM H F Int := do
  beginOp
  linkFrom sb cwd old new

def isdiremptyFrom (dp : Fin NINODE) (n : Inode) : Nat → Nat → FsM H F Bool
  | 0, _ => pure true
  | fuel + 1, off =>
      if off < n.size.val then do
        let de ← readi sb dp .kernel off DIRENT
        if de.length ≠ DIRENT then panic "isdirempty: readi"
        else if direntInum de ≠ 0 then pure false
        else isdiremptyFrom dp n fuel (off + DIRENT)
      else pure true

def isdirempty (dp : Fin NINODE) : FsM H F Bool := do
  let n ← iload dp
  isdiremptyFrom sb dp n (n.size.val + 1) (2 * DIRENT)

def dot : List UInt8 := [46]
def dotdot : List UInt8 := [46, 46]

/-- Whether an inode is a directory with entries. -/
def dirFull (ip : Fin NINODE) (n : Inode) : FsM H F Bool :=
  if n.type = T_DIR then do
    let empty ← isdirempty sb ip
    pure (!empty)
  else pure false

/-- `sys_unlink` once the directory is locked. -/
def unlinkAt (dp : Fin NINODE) (name : List UInt8) : FsM H F Int :=
  if namecmp name dot = 0 ∨ namecmp name dotdot = 0 then putFail sb dp
  else do
    let found ← dirlookup sb dp name
    match found with
    | none => putFail sb dp
    | some (ip, off) => do
        ilock sb ip
        let n ← iload ip
        if n.nlink.toInt < 1 then panic "unlink: nlink < 1"
        else
          let full ← dirFull sb ip n
          if full then
            iunlockput sb ip
            putFail sb dp
          else
            let r ← writei sb dp (direntSrc (List.replicate DIRENT 0)) off DIRENT
            if r ≠ DIRENT then panic "unlink: writei"
            else
              (if n.type = T_DIR then do
                let d ← iload dp
                istore dp { d.toDinode with nlink := d.nlink - 1 }
                iupdate sb dp
              else pure () : FsM H F Unit)
              iunlockput sb dp
              let n ← iload ip
              istore ip { n.toDinode with nlink := n.nlink - 1 }
              iupdate sb ip
              iunlockput sb ip
              endOp
              pure 0

def sysUnlink (cwd : Fin NINODE) (path : List UInt8) : FsM H F Int := do
  beginOp
  let found ← nameiparent sb cwd path
  match found with
  | none => fail
  | some (dp, name) => do
      ilock sb dp
      unlinkAt sb dp name

/-- The entries `.` and `..` of a new directory. -/
def createDots (dp ip : Fin NINODE) (inum : Nat) : FsM H F Unit := do
  let d ← iload dp
  istore dp { d.toDinode with nlink := d.nlink + 1 }
  iupdate sb dp
  let r ← dirlink sb ip dot inum
  if r < 0 then panic "create dots"
  else
    let r ← dirlink sb ip dotdot d.inum
    if r < 0 then panic "create dots" else pure ()

/-- The last steps of `create`: the name is entered, and the directory is released. -/
def createEnter (dp : Fin NINODE) (name : List UInt8) (ip : Fin NINODE) (inum : Nat) :
    FsM H F (Option (Fin NINODE)) := do
  let r ← dirlink sb dp name inum
  if r < 0 then panic "create: dirlink"
  else
    iunlockput sb dp
    pure (some ip)

/-- `create` once it has found that the name is new. -/
def createAt (dp : Fin NINODE) (name : List UInt8) (type major minor : Short) :
    FsM H F (Option (Fin NINODE)) := do
  let d ← iload dp
  let ip ← ialloc sb d.dev type
  ilock sb ip
  let n ← iload ip
  istore ip { n.toDinode with major := major, minor := minor, nlink := 1 }
  iupdate sb ip
  (if type = T_DIR then createDots sb dp ip n.inum else pure () : FsM H F Unit)
  createEnter sb dp name ip n.inum

/-- `create` once it has found the directory. -/
def createIn (dp : Fin NINODE) (name : List UInt8) (type major minor : Short) :
    FsM H F (Option (Fin NINODE)) := do
  ilock sb dp
  let found ← dirlookup sb dp name
  match found with
  | some (ip, _) => do
      iunlockput sb dp
      ilock sb ip
      let n ← iload ip
      if type = T_FILE ∧ (n.type = T_FILE ∨ n.type = T_DEVICE) then pure (some ip)
      else
        iunlockput sb ip
        pure none
  | none => createAt sb dp name type major minor

/-- `create`: a locked inode, or nothing. -/
def create (cwd : Fin NINODE) (path : List UInt8) (type major minor : Short) :
    FsM H F (Option (Fin NINODE)) := do
  let found ← nameiparent sb cwd path
  match found with
  | none => pure none
  | some (dp, name) => createIn sb dp name type major minor

end Namespace

/-! ### Open files -/

/-- The loop of `fdalloc` over the given descriptors. -/
def fdallocFrom (f : Fin NFILE) : List Nat → FsM H FileSig (Option Nat)
  | [] => pure none
  | fd :: fds => do
      let o ← ofile fd
      match o with
      | none => do
          setOfile fd (some f)
          pure (some fd)
      | some _ => fdallocFrom f fds

def fdalloc (f : Fin NFILE) : FsM H FileSig (Option Nat) := fdallocFrom f (List.range NOFILE)

def argfd (fd : Int) : FsM H FileSig (Option (Fin NFILE)) :=
  if fd < 0 ∨ fd ≥ NOFILE then pure none else ofile fd.toNat

def fileclose (f : Fin NFILE) : FsM H FileSig Unit := do
  let last ← fileput f
  match last with
  | none => pure ()
  | some ff => match ff.type with
    | .pipe => do
        let _ ← chario
        pure ()
    | .inode | .device => do
        beginOp
        iput sb ff.ip
        endOp
    | .none => pure ()

/-- `filestat` on an inode. -/
def statAt (ip : Fin NINODE) (dst : Dst) : FsM H FileSig Int := do
  ilock sb ip
  let _ ← iload ip
  iunlock ip
  if eitherCopyout dst STAT then pure 0 else pure (-1)

def filestat (f : Fin NFILE) (dst : Dst) : FsM H FileSig Int := do
  let ff ← fload f
  match ff.type with
  | .inode | .device => statAt sb ff.ip dst
  | _ => pure (-1)

/-- `fileread`: what it returns, and the bytes of an inode that it stores. -/
def fileread (f : Fin NFILE) (dst : Dst) (n : Int) : FsM H FileSig (Int × List UInt8) := do
  let ff ← fload f
  if ff.readable then
    match ff.type with
    | .pipe => do
        let r ← chario
        pure (r, [])
    | .device =>
        if ff.major.toInt < 0 ∨ ff.major.toInt ≥ NDEV then pure (-1, [])
        else do
          let r ← chario
          pure (r, [])
    | .inode => do
        ilock sb ff.ip
        let ff ← fload f
        let (bytes, rest) ← readiStored sb ff.ip dst ff.off.val (n % 2 ^ 32).toNat
        (if bytes.length > 0 then fstore f { ff with off := ff.off + Uint.of bytes.length }
          else pure () : FsM H FileSig Unit)
        iunlock ff.ip
        pure (bytes.length, bytes ++ rest)
    | .none => panic "fileread"
  else pure (-1, [])

/-- `writei` at the offset of a file, which then advances. -/
def advance (f : Fin NFILE) (ip : Fin NINODE) (src : Src) (n1 : Nat) : FsM H FileSig Int := do
  let ff ← fload f
  let r ← writei sb ip src ff.off.val n1
  (if r > 0 then fstore f { ff with off := ff.off + Uint.of r.toNat } else pure () : FsM H FileSig Unit)
  pure r

/-- One round of the loop of `filewrite`: an operation with the inode locked. -/
def chunk (f : Fin NFILE) (ip : Fin NINODE) (src : Src) (n1 : Nat) : FsM H FileSig Int := do
  beginOp
  ilock sb ip
  let r ← advance sb f ip src n1
  iunlock ip
  endOp
  pure r

/-- The loop of `filewrite`. The number of bytes written when it ends is returned. -/
def filewriteFrom (f : Fin NFILE) (ip : Fin NINODE) (src : Src) (n : Nat) : Nat → Nat → FsM H FileSig Nat
  | 0, i => pure i
  | fuel + 1, i =>
      if i < n then do
        let r ← chunk sb f ip (src.add i) (min (n - i) CHUNK)
        if r < 0 then pure i
        else if r ≠ (min (n - i) CHUNK : Nat) then panic "short filewrite"
        else filewriteFrom f ip src n fuel (i + min (n - i) CHUNK)
      else pure i

def filewrite (f : Fin NFILE) (src : Src) (n : Int) : FsM H FileSig Int := do
  let ff ← fload f
  if ff.writable then
    match ff.type with
    | .pipe => chario
    | .device => if ff.major.toInt < 0 ∨ ff.major.toInt ≥ NDEV then pure (-1) else chario
    | .inode => do
        let i ← filewriteFrom sb f ff.ip src n.toNat n.toNat 0
        if (i : Int) = n then pure n else pure (-1)
    | .none => panic "filewrite"
  else pure (-1)

/-- The end of `sys_open`. -/
def opened (ip : Fin NINODE) (trunc : Bool) (fd : Nat) : FsM H FileSig Int := do
  (if trunc then itrunc sb ip else pure () : FsM H FileSig Unit)
  iunlock ip
  endOp
  pure fd

/-- `sys_open` once it has the locked inode. -/
def openAt (ip : Fin NINODE) (omode : Nat) : FsM H FileSig Int := do
  let n ← iload ip
  if n.type = T_DEVICE ∧ (n.major.toInt < 0 ∨ n.major.toInt ≥ NDEV) then putFail sb ip
  else
    let f ← filealloc
    match f with
    | none => putFail sb ip
    | some f => do
        let fd ← fdalloc f
        match fd with
        | none => do
            -- the type of a file from `filealloc` is `FD_NONE`: `fileclose` only drops the reference
            let _ ← fileput f
            putFail sb ip
        | some fd => do
            let ff ← fload f
            let readable := omode &&& O_WRONLY = 0
            let writable := ¬ omode &&& O_WRONLY = 0 ∨ ¬ omode &&& O_RDWR = 0
            fstore f (if n.type = T_DEVICE then ⟨.device, readable, writable, ip, ff.off, n.major⟩
              else ⟨.inode, readable, writable, ip, 0, ff.major⟩)
            opened sb ip (¬ omode &&& O_TRUNC = 0 ∧ n.type = T_FILE) fd

def sysOpen (path : List UInt8) (omode : Nat) : FsM H FileSig Int := do
  beginOp
  let cwd ← getCwd
  if ¬ omode &&& O_CREATE = 0 then
    let ip ← create sb cwd path T_FILE 0 0
    match ip with
    | none => fail
    | some ip => openAt sb ip omode
  else
    let ip ← namei sb cwd path
    match ip with
    | none => fail
    | some ip => do
        ilock sb ip
        let n ← iload ip
        if n.type = T_DIR ∧ omode ≠ 0 then putFail sb ip
        else openAt sb ip omode

def sysMake (path : Option (List UInt8)) (type major minor : Short) : FsM H FileSig Int := do
  beginOp
  match path with
  | none => fail
  | some path => do
      let cwd ← getCwd
      let ip ← create sb cwd path type major minor
      match ip with
      | none => fail
      | some ip => do
          iunlockput sb ip
          endOp
          pure 0

def sysChdir (path : Option (List UInt8)) : FsM H FileSig Int := do
  beginOp
  match path with
  | none => fail
  | some path => do
      let cwd ← getCwd
      let ip ← namei sb cwd path
      match ip with
      | none => fail
      | some ip => do
          ilock sb ip
          let n ← iload ip
          if n.type ≠ T_DIR then putFail sb ip
          else
            iunlock ip
            iput sb cwd
            endOp
            setCwd ip
            pure 0

end Fs

/-- The system calls on files with their arguments. -/
inductive Syscall where
  | dup (fd : Int)
  | read (fd : Int) (dst : Dst) (n : Int)
  | write (fd : Int) (src : Src) (n : Int)
  | close (fd : Int)
  | fstat (fd : Int) (dst : Dst)
  | link (old new : Option (List UInt8))
  | unlink (path : Option (List UInt8))
  | open (path : Option (List UInt8)) (omode : Nat)
  | mkdir (path : Option (List UInt8))
  | mknod (path : Option (List UInt8)) (major minor : Short)
  | chdir (path : Option (List UInt8))

namespace Syscall

variable {H : Type}

open Fs

def run (sb : Superblock) : Syscall → FsM H FileSig Int
  | dup fd => do
      let f ← argfd fd
      match f with
      | none => pure (-1)
      | some f => do
          let fd ← fdalloc f
          match fd with
          | none => pure (-1)
          | some fd => do
              filedup f
              pure fd
  | read fd dst n => do
      let f ← argfd fd
      match f with
      | none => pure (-1)
      | some f => do
          let r ← fileread sb f dst n
          pure r.1
  | write fd src n => do
      let f ← argfd fd
      match f with
      | none => pure (-1)
      | some f => filewrite sb f src n
  | close fd => do
      let f ← argfd fd
      match f with
      | none => pure (-1)
      | some f => do
          setOfile fd.toNat none
          fileclose sb f
          pure 0
  | fstat fd dst => do
      let f ← argfd fd
      match f with
      | none => pure (-1)
      | some f => filestat sb f dst
  | link (some old) (some new) => do
      let cwd ← getCwd
      sysLink sb cwd old new
  | link _ _ => pure (-1)
  | unlink (some path) => do
      let cwd ← getCwd
      sysUnlink sb cwd path
  | unlink none => pure (-1)
  | Syscall.open (some path) omode => sysOpen sb path omode
  | Syscall.open none _ => pure (-1)
  | mkdir path => sysMake sb path T_DIR 0 0
  | mknod path major minor => sysMake sb path T_DEVICE major minor
  | chdir path => sysChdir sb path

/-- A process that makes the given calls. -/
def runAll (sb : Superblock) : List Syscall → FsM H FileSig Unit
  | [] => pure ()
  | c :: cs => do
      let _ ← c.run sb
      runAll sb cs

end Syscall

end Xv6
