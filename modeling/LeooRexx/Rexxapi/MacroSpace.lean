import LeooRexx.Foundation.ByteStream
import Mathlib.Data.Vector.Basic
import Mathlib.Data.List.TakeWhile
import Mathlib.Data.UInt
import Mathlib.Algebra.Order.BigOperators.Group.List

/-!
# The macro space and its files

The chain of macros from `apidata->mbase` on, and the file that `RexxSaveMacroSpace`
writes: a version string, a flag, the number of macros, their headers and their images.
The words of a header are those of the machine that saved it.  What a buffer holds
before a read is a parameter, since a read of nothing leaves it there.
-/

namespace LeooRexx

/-! ## Words and headers -/

namespace ULONG

/-- The bytes of an `unsigned long` in memory. -/
def bytes (n : UInt32) : List UInt8 :=
  [n.toUInt8, (n >>> 8).toUInt8, (n >>> 16).toUInt8, (n >>> 24).toUInt8]

def ofBytes (bs : List UInt8) : UInt32 :=
  .ofNat ((bs.getD 0 0).toNat + 256 * (bs.getD 1 0).toNat + 65536 * (bs.getD 2 0).toNat
    + 16777216 * (bs.getD 3 0).toNat)

@[simp] theorem length_bytes (n : UInt32) : (bytes n).length = 4 := rfl

theorem ofBytes_bytes_append (n : UInt32) (rest : List UInt8) :
    ofBytes (bytes n ++ rest) = n := by
  apply UInt32.toNat_inj.mp
  have hn := n.toNat_lt
  simp only [ofBytes, bytes, List.cons_append, List.nil_append, List.getD_cons_zero,
    List.getD_cons_succ, UInt32.toNat_ofNat', UInt32.toNat_toUInt8, UInt32.toNat_shiftRight,
    Nat.shiftRight_eq_div_pow, UInt32.reduceToNat]
  simp only [Nat.reduceMod, Nat.reducePow]
  omega

@[simp] theorem ofBytes_bytes (n : UInt32) : ofBytes (bytes n) = n := by
  have h := ofBytes_bytes_append n []
  rwa [List.append_nil] at h

end ULONG

abbrev NAMESIZE : ℕ := 255

/-- The structure `MACRO`, the alignment byte after the name included. -/
structure MACRO where
  next : UInt32
  name : List.Vector UInt8 NAMESIZE
  align : UInt8
  temp_strlength : UInt32
  temp_strptr : UInt32
  image : UInt32
  i_size : UInt32
  srch_pos : UInt32
  deriving DecidableEq

abbrev MACROSIZE : ℕ := 280

abbrev PSZ := { s : List UInt8 // 0 ∉ s }

namespace MACRO

def tailWords (m : MACRO) : List UInt8 :=
  ULONG.bytes m.temp_strlength ++ (ULONG.bytes m.temp_strptr ++ (ULONG.bytes m.image ++
    (ULONG.bytes m.i_size ++ ULONG.bytes m.srch_pos)))

def bytes (m : MACRO) : List UInt8 :=
  ULONG.bytes m.next ++ (m.name.toList ++ (m.align :: m.tailWords))

def ofBytes (bs : List UInt8) : MACRO where
  next := ULONG.ofBytes bs
  name := List.Vector.ofFn fun i : Fin NAMESIZE => (bs.drop 4).getD i 0
  align := bs.getD 259 0
  temp_strlength := ULONG.ofBytes (bs.drop 260)
  temp_strptr := ULONG.ofBytes (bs.drop 264)
  image := ULONG.ofBytes (bs.drop 268)
  i_size := ULONG.ofBytes (bs.drop 272)
  srch_pos := ULONG.ofBytes (bs.drop 276)

def cname (m : MACRO) : PSZ := ⟨m.name.toList.takeWhile (· ≠ 0), fun h => by
  have := List.mem_takeWhile_imp h
  simp at this⟩

@[simp] theorem length_tailWords (m : MACRO) : m.tailWords.length = 20 := by
  simp [tailWords]

@[simp] theorem length_bytes (m : MACRO) : m.bytes.length = MACROSIZE := by
  rw [bytes, List.length_append, List.length_append, List.length_cons, length_tailWords,
    ULONG.length_bytes, List.Vector.toList_length]
  rfl

theorem drop_bytes (m : MACRO) (rest : List UInt8) (n : ℕ) :
    (m.bytes ++ rest).drop (260 + n) = (m.tailWords ++ rest).drop n := by
  have hsplit : m.bytes ++ rest =
      (ULONG.bytes m.next ++ m.name.toList ++ [m.align]) ++ (m.tailWords ++ rest) := by
    simp [bytes]
  have hlength : (ULONG.bytes m.next ++ m.name.toList ++ [m.align]).length = 260 := by
    rw [List.length_append, List.length_append, ULONG.length_bytes, List.Vector.toList_length,
      List.length_singleton]
    rfl
  rw [hsplit, ← List.drop_drop, List.drop_left' hlength]

theorem name_drop (m : MACRO) (rest : List UInt8) (i : Fin NAMESIZE) :
    ((m.bytes ++ rest).drop 4).getD i 0 = m.name.get i := by
  have hname : (i : ℕ) < m.name.toList.length := by
    rw [List.Vector.toList_length]
    exact i.isLt
  rw [bytes, List.append_assoc, List.drop_left' (ULONG.length_bytes _), List.append_assoc,
    List.getD_eq_getElem?_getD, List.getElem?_append_left hname,
    List.getElem?_eq_getElem hname, List.Vector.get_eq_get_toList]
  rfl

theorem align_at (m : MACRO) (rest : List UInt8) :
    (m.bytes ++ rest).getD 259 0 = m.align := by
  have hsplit : m.bytes ++ rest =
      (ULONG.bytes m.next ++ m.name.toList) ++ (m.align :: (m.tailWords ++ rest)) := by
    simp [bytes]
  have hlength : (ULONG.bytes m.next ++ m.name.toList).length = 259 := by
    rw [List.length_append, ULONG.length_bytes, List.Vector.toList_length]
    rfl
  rw [hsplit, List.getD_eq_getElem?_getD, List.getElem?_append_right (by omega), hlength]
  rfl

@[simp] theorem ofBytes_bytes_append (m : MACRO) (rest : List UInt8) :
    ofBytes (m.bytes ++ rest) = m := by
  have hnext : ULONG.ofBytes (m.bytes ++ rest) = m.next := by
    rw [bytes, List.append_assoc, ULONG.ofBytes_bytes_append]
  have hwords : ∀ (n : ℕ) (w : UInt32) (after : List UInt8),
      (m.tailWords ++ rest).drop n = ULONG.bytes w ++ after →
        ULONG.ofBytes ((m.bytes ++ rest).drop (260 + n)) = w := by
    intro n w after h
    rw [drop_bytes, h, ULONG.ofBytes_bytes_append]
  have hname : (List.Vector.ofFn fun i : Fin NAMESIZE => ((m.bytes ++ rest).drop 4).getD i 0) =
      m.name := by
    apply List.Vector.ext
    intro i
    rw [List.Vector.get_ofFn]
    exact name_drop m rest i
  have hstrlength := hwords 0 m.temp_strlength _ (by rw [tailWords, List.append_assoc]; rfl)
  have hstrptr := hwords 4 m.temp_strptr _ (by simp only [tailWords, List.append_assoc]; rfl)
  have himage := hwords 8 m.image _ (by simp only [tailWords, List.append_assoc]; rfl)
  have hsize := hwords 12 m.i_size _ (by simp only [tailWords, List.append_assoc]; rfl)
  have hpos := hwords 16 m.srch_pos _ (by simp only [tailWords, List.append_assoc]; rfl)
  rw [ofBytes, hnext, hname, align_at, hstrlength, hstrptr, himage, hsize, hpos]

end MACRO

/-! ## The chain -/

structure Macro where
  header : MACRO
  img : List UInt8
  deriving DecidableEq

/-- What the entry points see of `apidata`. -/
structure APIDATA where
  /-- The macros from `mbase` on. -/
  chain : List Macro
  macrocount : ℕ
  mcount : UInt32
  deriving DecidableEq

inductive ReturnCode where
  | RXMACRO_OK
  | RXMACRO_NO_STORAGE
  | RXMACRO_NOT_FOUND
  | RXMACRO_ALREADY_EXISTS
  | RXMACRO_FILE_ERROR
  | RXMACRO_SIGNATURE_ERROR
  deriving DecidableEq, Repr

open ReturnCode

def tolower (c : UInt8) : UInt8 := if 65 ≤ c ∧ c ≤ 90 then c + 32 else c

/-- `rxstricmp` on the bytes before the zero bytes. -/
def rxstricmp : List UInt8 → List UInt8 → Int
  | [], [] => 0
  | a :: _, [] => (tolower a).toNat
  | [], b :: _ => -(tolower b).toNat
  | a :: s1, b :: s2 =>
    if tolower a ≠ tolower b then (tolower a).toNat - (tolower b).toNat else rxstricmp s1 s2

def sameName (s1 s2 : PSZ) : Bool := rxstricmp s1.val s2.val == 0

/-- `request`: whether a string is in the argument list. -/
def request (argv : List PSZ) (name : PSZ) : Bool := argv.any fun arg => sameName name arg

def wanted (argv : List PSZ) (m : MACRO) : Bool := argv.isEmpty || request argv m.cname

def doesExist (s : APIDATA) (name : PSZ) : Option Macro :=
  s.chain.find? fun m => sameName m.header.cname name

/-! ## Saving -/

def makelst (s : APIDATA) (argv : List PSZ) : List Macro × APIDATA :=
  let list := if s.macrocount = 0 then [] else s.chain.filter fun m => wanted argv m.header
  (list, { s with mcount := .ofNat list.length })

def RXVERSION : List UInt8 := [82, 69, 88, 88, 83, 65, 65, 32, 52, 46, 48, 48]

abbrev RXVERSIZE : ℕ := 12

def SIGNATURE : UInt32 := 0xddd5

def macroFile (mcount : UInt32) (list : List Macro) : List UInt8 :=
  RXVERSION ++ ULONG.bytes SIGNATURE ++ ULONG.bytes mcount
    ++ list.flatMap (fun m => m.header.bytes) ++ list.flatMap Macro.img

/-- `RexxSaveMacroSpace` when the list can be allocated and the file be written. -/
def RexxSaveMacroSpace (s : APIDATA) (av : List PSZ) :
    ReturnCode × Option (List UInt8) × APIDATA :=
  let (list, s) := makelst s av
  if s.mcount = 0 then (RXMACRO_NOT_FOUND, none, s)
  else (RXMACRO_OK, some (macroFile s.mcount list), s)

/-! ## Loading -/

structure Uninitialised where
  /-- `buf` of `macrofile_open`. -/
  buf : List.Vector UInt8 RXVERSIZE
  /-- `i` of `macrofile_open`. -/
  i : UInt32
  /-- The headers, by their offset. -/
  tbase : ℕ → UInt8
  /-- The buffer of each image, by the number of the macro and the offset. -/
  strptr : ℕ → ℕ → UInt8

/-- What `malloc` returns. -/
def malloc (garbage : ℕ → UInt8) (size : ℕ) : List UInt8 := (List.range size).map garbage

@[simp] theorem length_malloc (garbage : ℕ → UInt8) (size : ℕ) :
    (malloc garbage size).length = size := by
  simp [malloc]

/-- What `file_read` leaves: whether it reports an error, the buffer and the file. -/
structure FileRead where
  rc : Bool
  buffer : List UInt8
  file : ByteStream

/-- `file_read`: an error is that something came but not all. -/
def fileRead (f : ByteStream) (b : List UInt8) (l : ℕ) : FileRead :=
  let r := f.fread b l
  ⟨r.count ≠ 0 ∧ r.count ≠ l, r.buffer, r.stream⟩

def macrofileOpen (u : Uninitialised) (file : List UInt8) : Except ReturnCode ByteStream :=
  let version := fileRead ⟨file, 0⟩ u.buf.toList RXVERSIZE
  if version.rc then .error RXMACRO_FILE_ERROR
  else if version.buffer ≠ RXVERSION then .error RXMACRO_SIGNATURE_ERROR
  else
    let flag := fileRead version.file (ULONG.bytes u.i) 4
    if flag.rc then .error RXMACRO_FILE_ERROR
    else if ULONG.ofBytes flag.buffer ≠ SIGNATURE then .error RXMACRO_SIGNATURE_ERROR
    else .ok flag.file

def headersOf (mcount : ℕ) (tbase : List UInt8) : List MACRO :=
  (List.range mcount).map fun i => MACRO.ofBytes (tbase.drop (i * MACROSIZE))

def savedMacro (name : PSZ) (tbase : List MACRO) : Bool :=
  tbase.any fun w => sameName w.cname name

def checkArguments (s : APIDATA) (tbase : List MACRO) : List PSZ → Option ReturnCode
  | [] => none
  | name :: av =>
    if ¬ savedMacro name tbase then some RXMACRO_NOT_FOUND
    else if (doesExist s name).isSome then some RXMACRO_ALREADY_EXISTS
    else checkArguments s tbase av

def refusal (s : APIDATA) (av : List PSZ) (tbase : List MACRO) : Option ReturnCode :=
  if av.isEmpty then
    if tbase.any fun w => (doesExist s w.cname).isSome then some RXMACRO_ALREADY_EXISTS
    else none
  else checkArguments s tbase av

/-- The offset of `fseek`: a `long`. -/
def toLong (n : UInt32) : Int := if n.toNat < 2 ^ 31 then n.toNat else (n.toNat : Int) - 2 ^ 32

/-- The image loop of `ldmacro`: the `temp_buf` of each header. -/
def readImages (u : Uninitialised) (av : List PSZ) :
    ℕ → List MACRO → ByteStream → Except ReturnCode (List (List UInt8))
  | _, [], _ => .ok []
  | i, w :: ws, f =>
    if wanted av w then
      -- `rxstrfrmfile`; the one that `file_read` returns reads as a lack of storage
      let r := fileRead f (malloc (u.strptr i) w.i_size.toNat) w.i_size.toNat
      if r.rc then .error RXMACRO_NO_STORAGE
      else (readImages u av (i + 1) ws r.file).map (r.buffer :: ·)
    else
      match f.fseek (toLong w.i_size) with
      | none => .error RXMACRO_FILE_ERROR
      | some f => (readImages u av (i + 1) ws f).map ([] :: ·)

/-- The offsets that `RxAllocMem` hands out for the headers and images of a load, the
buffers that `malloc` returned for the images, and `mbase` before the load. -/
structure Addresses where
  mbase : UInt32
  header : ℕ → UInt32
  image : ℕ → UInt32
  strptr : ℕ → UInt32

def dupList (o : Addresses) : ℕ → UInt32 → List (MACRO × List UInt8) → List Macro → List Macro
  | _, _, [], chain => chain
  | j, mbase, (old, temp_buf) :: rest, chain =>
    if temp_buf.length ≠ 0 then
      let header := { old with
        temp_strlength := .ofNat temp_buf.length, temp_strptr := o.strptr j
        image := o.image j, i_size := .ofNat temp_buf.length, next := mbase }
      dupList o (j + 1) (o.header j) rest (⟨header, temp_buf⟩ :: chain)
    else dupList o j mbase rest chain

def newMcount (list : List (MACRO × List UInt8)) : ℕ :=
  list.countP fun entry => entry.2.length ≠ 0

/-- `ldmacro` when the storage that it asks for is there. -/
def ldmacro (u : Uninitialised) (o : Addresses) (s : APIDATA) (av : List PSZ) (f : ByteStream) :
    ReturnCode × APIDATA :=
  let count := fileRead f (ULONG.bytes s.mcount) 4
  let s := { s with mcount := ULONG.ofBytes count.buffer }
  if count.rc then (RXMACRO_FILE_ERROR, s)
  else
    let tbaseSize := s.mcount.toNat * MACROSIZE
    if tbaseSize = 0 then (RXMACRO_OK, s)
    else
      let read := fileRead count.file (malloc u.tbase tbaseSize) tbaseSize
      if read.rc then (RXMACRO_FILE_ERROR, s)
      else
        -- the fields `image` and `temp_buf` are cleared here, and no check looks at them
        let tbase := headersOf s.mcount.toNat read.buffer
        match refusal s av tbase with
        | some rc => (rc, s)
        | none =>
          match readImages u av 0 tbase read.file with
          | .error rc => (rc, s)
          | .ok bufs =>
            let list := tbase.zip bufs
            (RXMACRO_OK,
              { s with
                chain := dupList o 0 o.mbase list s.chain
                mcount := .ofNat (newMcount list)
                macrocount := s.macrocount + newMcount list })

/-- `RexxLoadMacroSpace` of a file with these bytes. -/
def RexxLoadMacroSpace (u : Uninitialised) (o : Addresses) (s : APIDATA) (av : List PSZ)
    (file : List UInt8) : ReturnCode × APIDATA :=
  match macrofileOpen u file with
  | .error rc => (rc, s)
  | .ok f => ldmacro u o s av f

end LeooRexx
