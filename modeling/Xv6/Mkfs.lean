import Xv6.Fs.Logical

/-! `mkfs/mkfs.c`, which makes the image of the disk, and what the kernel takes such an image to be. The program
writes sectors of 512 bytes, the kernel reads blocks of `BSIZE`. The program checks that the areas it plans
fill the image, and they do not: it stops there, whatever files it is given. -/

namespace Xv6

open Lib

namespace Mkfs

/-! ### The program -/

/-- What `wsect` writes at once. -/
abbrev Sector := Bytes 512

def nblocks : Nat := 995 - LOGSIZE
def nlog : Nat := LOGSIZE
def ninodes : Nat := 200
def size : Nat := 1024

/-- Why a run of the program ends early: an assertion does not hold, a call to the host fails, or memory
outside of an array is used. -/
inductive Stop where
  | assertion (text : String)
  | exit
  | undefined
  deriving DecidableEq

/-- The image file, `length` sectors long, and the variables of the program. -/
structure Vars where
  image : Nat → Sector
  length : Nat
  freeblock : Nat
  usedblocks : Nat
  freeinode : Nat

abbrev MkfsM := StateT Vars (Except Stop)

def assert (p : Prop) [Decidable p] (text : String) : MkfsM Unit :=
  if p then pure () else throw (.assertion text)

def wsect (sec : Nat) (buf : Sector) : MkfsM Unit :=
  modify fun v => { v with image := Function.update v.image sec buf, length := max v.length (sec + 1) }

def rsect (sec : Nat) : MkfsM Sector := do
  let v ← get
  if sec < v.length then pure (v.image sec) else throw .exit

def i2b (inum : Nat) : Nat := inum / IPB + 2

/-- A sector at the start of a block of the kernel's size. -/
def wide (buf : Sector) : Block := Bytes.ofFn buf.get

/-- `*((struct dinode*)buf + k)`, in a buffer of one sector. -/
def getInode (buf : Sector) (k : Nat) : MkfsM Dinode :=
  if k < 512 / DINODE then pure ((wide buf).getInode k) else throw .undefined

def winode (inum : Nat) (ip : Dinode) : MkfsM Unit := do
  let buf ← rsect (i2b inum)
  if inum % IPB < 512 / DINODE then wsect (i2b inum) (buf.write (DINODE * (inum % IPB)) ip.byte DINODE)
  else throw .undefined

def rinode (inum : Nat) : MkfsM Dinode := do
  let buf ← rsect (i2b inum)
  getInode buf (inum % IPB)

def ialloc (type : Short) : MkfsM Nat := do
  let v ← get
  set { v with freeinode := v.freeinode + 1 }
  winode v.freeinode { Dinode.zero with type := type, nlink := 1 }
  pure v.freeinode

def newblock : MkfsM Uint := do
  let v ← get
  set { v with freeblock := v.freeblock + 1, usedblocks := v.usedblocks + 1 }
  pure (Uint.of v.freeblock)

/-- The block of the file that has offset `off`, and the inode with it. The array `indirect` has `NINDIRECT`
entries, of which `rsect` fills those of one sector. -/
def blockAt (din : Dinode) (fbn : Nat) : MkfsM (Dinode × Nat) := do
  if fbn < NDIRECT then
    if din.addr fbn = 0 then
      let a ← newblock
      pure (din.setAddr fbn a, a.val)
    else pure (din, din.addr fbn)
  else
    let din ← (if din.addr NDIRECT = 0 then do
        let a ← newblock
        pure (din.setAddr NDIRECT a)
      else pure din : MkfsM Dinode)
    let indirect ← rsect (din.addr NDIRECT)
    if fbn - NDIRECT < 512 / 4 then
      if (wide indirect).entry (fbn - NDIRECT) = 0 then
        let a ← newblock
        wsect (din.addr NDIRECT) (indirect.setLE (4 * (fbn - NDIRECT)) 4 a.val)
        pure (din, a.val)
      else pure (din, ((wide indirect).entry (fbn - NDIRECT)).val)
    else throw .undefined

/-- The loop of `iappend`. Each round copies a byte at least, so that the number of bytes bounds the
rounds. -/
def iappendFrom : Nat → Dinode → Nat → List UInt8 → MkfsM (Dinode × Nat)
  | 0, din, off, _ => pure (din, off)
  | fuel + 1, din, off, p =>
      if p = [] then pure (din, off)
      else do
        let fbn := off / 512
        assert (fbn < MAXFILE) "fbn < MAXFILE"
        let (din, x) ← blockAt din fbn
        let n1 := min p.length ((fbn + 1) * 512 - off)
        let buf ← rsect x
        wsect x (buf.write (off - fbn * 512) (fun j => p.getD j 0) n1)
        iappendFrom fuel din (off + n1) (p.drop n1)

def iappend (inum : Nat) (p : List UInt8) : MkfsM Unit := do
  let din ← rinode inum
  let (din, off) ← iappendFrom p.length din din.size.val p
  winode inum { din with size := Uint.of off }

/-- The sector of the bit map in which the first `used` bits are set. -/
def usedBits (used : Nat) : Sector :=
  Bytes.ofFn fun i => UInt8.ofNat (((List.range 8).filter fun j => 8 * i + j < used).map (2 ^ ·)).sum

def balloc (used : Nat) : MkfsM Unit := do
  assert (used < 512 * 8) "used < 512*8"
  wsect (ninodes / IPB + 3) (usedBits used)

/-- A file of the host. -/
structure HostFile where
  name : List UInt8
  content : List UInt8

/-- The file's name in the image, without a leading underscore. -/
def HostFile.shortname (f : HostFile) : List UInt8 := if f.name.head? = some 95 then f.name.tail else f.name

/-- The calls of `read(fd, buf, sizeof(buf))` with what each gives. -/
def appendAll (inum : Nat) : Nat → List UInt8 → MkfsM Unit
  | 0, _ => pure ()
  | fuel + 1, p =>
      if p = [] then pure ()
      else do
        iappend inum (p.take 512)
        appendAll inum fuel (p.drop 512)

def addFile (rootino : Nat) (f : HostFile) : MkfsM Unit := do
  assert (slash ∉ f.name) "index(argv[i], '/') == 0"
  let inum ← ialloc T_FILE
  iappend rootino (dirent inum f.shortname)
  appendAll inum f.content.length f.content

def addFiles (rootino : Nat) : List HostFile → MkfsM Unit
  | [] => pure ()
  | f :: fs => do
      addFile rootino f
      addFiles rootino fs

/-- `for(i = 0; i < n; i++) wsect(i, zeroes)`. -/
def zeroAll : List Nat → MkfsM Unit
  | [] => pure ()
  | i :: is => do
      wsect i fun _ => 0
      zeroAll is

/-- The fields of `struct superblock`. -/
structure Sb where
  magic : Uint
  size : Uint
  nblocks : Uint
  ninodes : Uint
  nlog : Uint
  logstart : Uint
  inodestart : Uint
  bmapstart : Uint

def Sb.words (sb : Sb) : List Uint :=
  [sb.magic, sb.size, sb.nblocks, sb.ninodes, sb.nlog, sb.logstart, sb.inodestart, sb.bmapstart]

/-- The variable `sb`: `main` assigns four of its fields, the others stay 0. -/
def sb : Sb := ⟨0, Uint.of size, Uint.of nblocks, Uint.of ninodes, Uint.of nlog, 0, 0, 0⟩

def sbSector : Sector := Bytes.ofFn fun i => UInt8.ofNat ((sb.words.getD (i / 4) 0).val / 256 ^ (i % 4))

def bitblocks : Nat := size / (512 * 8) + 1

/-- `usedblocks` before the first file. -/
def metablocks : Nat := ninodes / IPB + 3 + bitblocks

/-- `main`, given the files after the name of the image. -/
def main (files : List HostFile) : MkfsM Unit := do
  assert (512 % DINODE = 0) "(512 % sizeof(struct dinode)) == 0"
  assert (512 % DIRENT = 0) "(512 % sizeof(struct dirent)) == 0"
  modify fun v => { v with usedblocks := metablocks, freeblock := metablocks }
  assert (nblocks + metablocks + nlog = size) "nblocks + usedblocks + nlog == size"
  zeroAll (List.range (nblocks + metablocks + nlog))
  wsect 1 sbSector
  let rootino ← ialloc T_DIR
  assert (rootino = ROOTINO) "rootino == ROOTINO"
  iappend rootino (dirent rootino [46])
  iappend rootino (dirent rootino [46, 46])
  addFiles rootino files
  let din ← rinode rootino
  winode rootino { din with size := Uint.of ((din.size.val / BSIZE + 1) * BSIZE) }
  let v ← get
  balloc v.usedblocks

/-- The program on an empty image file. -/
def mkfs (files : List HostFile) : Except Stop Vars :=
  (main files).run ⟨fun _ _ => 0, 0, 0, 0, 1⟩ |>.map Prod.snd

/-! ### What the kernel makes of the image -/

/-- Block `b` as the disk driver reads it: its two sectors. -/
def block (image : Nat → Sector) (b : Nat) : Block :=
  Bytes.ofFn fun i => (image (b * (BSIZE / 512) + i / 512)).get (i % 512)

def FSMAGIC : Uint := 0x10203040

def readsb (disk : Nat → Block) : Sb :=
  let field k := (disk 1).getUint (4 * k)
  ⟨field 0, field 1, field 2, field 3, field 4, field 5, field 6, field 7⟩

/-- What `fs.c` uses of the super block. -/
def Sb.layout (sb : Sb) : Superblock := ⟨sb.size.val, sb.ninodes.val, sb.inodestart.val, sb.bmapstart.val⟩

/-- The kernel when the first process has the root directory as its current one. -/
def boot (disk : Nat → Block) : FsState Unit (FileState Unit) where
  disk := disk
  owner _ := none
  op _ := false
  icache := ICache.userinit ()
  ext := FileState.init 0

/-- `namei` of a name in the current directory, then `readi` of the file's bytes. -/
def readFile (sb : Superblock) (name : List UInt8) (n : Nat) : FsM Nat FileSig (Option (List UInt8)) := do
  let found ← Fs.namei sb 0 name
  match found with
  | none => pure none
  | some ip => do
      Fs.ilock sb ip
      let bytes ← Fs.readi sb ip .kernel 0 n
      pure (some bytes)

/-- The kernel finds on the image what the program put there. -/
structure Agrees (files : List HostFile) (v : Vars) : Prop where
  magic : (readsb (block v.image)).magic = FSMAGIC
  log : ∀ i, i < (readsb (block v.image)).nlog.val →
    block v.image ((readsb (block v.image)).logstart.val + i) = Block.zero
  inode : ∀ inum, inum < v.freeinode → 0 < inum →
    (rinode inum).run v = .ok ((readsb (block v.image)).layout.dinode (block v.image) inum, v)
  used : ∀ b, b < v.freeblock → (readsb (block v.image)).layout.used (block v.image) b = true
  files : ∀ f ∈ files, ∃ s, (FsState.machine FileState.exec).run ()
    (readFile (readsb (block v.image)).layout f.shortname f.content.length) (boot (block v.image)) =
      .ok (some f.content) s

theorem mkfs_stops (files : List HostFile) :
    mkfs files = .error (.assertion "nblocks + usedblocks + nlog == size") := by
  unfold mkfs main
  have hdinode : assert (512 % DINODE = 0) "(512 % sizeof(struct dinode)) == 0" = pure () := rfl
  have hdirent : assert (512 % DIRENT = 0) "(512 % sizeof(struct dirent)) == 0" = pure () := rfl
  have hsize : assert (nblocks + metablocks + nlog = size)
      "nblocks + usedblocks + nlog == size" = throw (.assertion "nblocks + usedblocks + nlog == size") := rfl
  rw [hdinode, hdirent, hsize]
  rfl

/-- No list of files gives an image that the kernel agrees with. -/
theorem mkfs_never_agrees (files : List HostFile) : ¬∃ v, mkfs files = .ok v ∧ Agrees files v := by
  rintro ⟨v, hrun, -⟩
  rw [mkfs_stops] at hrun
  cases hrun

/-- One empty file named `README`. -/
theorem mkfs_fails_on_readme :
    ¬∃ v, mkfs [⟨[82, 69, 65, 68, 77, 69], []⟩] = .ok v ∧ Agrees [⟨[82, 69, 65, 68, 77, 69], []⟩] v := by
  rw [mkfs_stops]
  rintro ⟨v, hrun, -⟩
  cases hrun

end Mkfs

end Xv6
