import LeooRexx.Foundation.Chain
import LeooRexx.Rexxapi.MacroSpace

/-!
# The registration table

The pool of registration blocks and the three chains that `apidata->baseblock` starts,
with the calls that use them.  All blocks have one size, so the offset
`SHM_OFFSET + i * sizeof(APIBLOCK)` is written `some i`, and the offset 0, the end of a
chain, `none`.  The memory above the top of the pool is zero.
-/

namespace LeooRexx.SubcommandAPI

/-! ## Blocks -/

inductive RegType where
  | REGSUBCOMM
  | REGSYSEXIT
  | REGFUNCTION
  deriving DecidableEq

abbrev MAXNAME : ℕ := 128

abbrev USERLENGTH : ℕ := 8

/-- `sizeof(APIBLOCK)`. -/
abbrev APISIZE : ℕ := 424

abbrev SHM_OFFSET : ℕ := 4

abbrev SESTDSIZE : ℕ := 0x20000

def emptyString : PSZ := ⟨[], List.not_mem_nil⟩

/-- The structure `APIBLOCK`.  Addresses are numbers, with 0 for `NULL`. -/
structure APIBLOCK where
  next : Option ℕ
  apiname : PSZ
  apidll_name : PSZ
  apidll_proc : PSZ
  apiuser : List.Vector UInt8 USERLENGTH
  apiaddr : ℕ
  apitype : ℤ
  apimod_handle : ℕ
  apidrop_auth : ℕ
  apipid : ℕ
  apiownpid : ℕ
  apiFunRegFlag : ℤ
  deriving DecidableEq

def APIBLOCK.zero : APIBLOCK where
  next := none
  apiname := emptyString
  apidll_name := emptyString
  apidll_proc := emptyString
  apiuser := List.Vector.replicate USERLENGTH 0
  apiaddr := 0
  apitype := 0
  apimod_handle := 0
  apidrop_auth := 0
  apipid := 0
  apiownpid := 0
  apiFunRegFlag := 0

/-- The fields of `REXXAPIDATA` for registrations, the memory of the pool, and for each
process its `pLibSave` and `szLibName`. -/
structure REXXAPIDATA where
  baseblock : RegType → Option ℕ
  /-- `sebase` is not `NULL` -/
  sebase : Bool
  sememsize : ℕ
  /-- the number of blocks below `sememtop` -/
  count : ℕ
  SEDATA : ℕ → APIBLOCK
  pLibSave : ℕ → ℕ
  szLibName : ℕ → PSZ

structure Process where
  getpid : ℕ
  getpgrp : ℕ
  pos : 0 < getpid

structure System where
  /-- whether a segment of this size is granted -/
  getshmem : ℕ → Bool
  /-- whether `kill(pid, 0)` fails -/
  kill : ℕ → Bool
  dlopen : List UInt8 → ℕ
  dlsym : ℕ → PSZ → ℕ
  /-- whether this process runs; no call reads it -/
  running : ℕ → Bool

namespace REXXAPIDATA

def sememtop (s : REXXAPIDATA) : ℕ := SHM_OFFSET + s.count * APISIZE

def start : REXXAPIDATA where
  baseblock := fun _ => none
  sebase := false
  sememsize := 0
  count := 0
  SEDATA := fun _ => .zero
  pLibSave := fun _ => 0
  szLibName := fun _ => emptyString

def setBlock (s : REXXAPIDATA) (i : ℕ) (b : APIBLOCK) : REXXAPIDATA :=
  { s with SEDATA := Function.update s.SEDATA i b }

def setBase (s : REXXAPIDATA) (type : RegType) (base : Option ℕ) : REXXAPIDATA :=
  { s with baseblock := Function.update s.baseblock type base }

def link (s : REXXAPIDATA) (i : ℕ) : Option ℕ := (s.SEDATA i).next

end REXXAPIDATA

open REXXAPIDATA

/-! ## The pool -/

/-- The larger segments of `RxAllocMem`: the size of the one that is large enough. -/
def enlarge (sys : System) (top sememsize : ℕ) : Option ℕ :=
  if APISIZE > sememsize - top - 10 then
    if sys.getshmem (sememsize + SESTDSIZE) then enlarge sys top (sememsize + SESTDSIZE)
    else none
  else some sememsize
  termination_by top + APISIZE + 10 - sememsize
  decreasing_by
    simp only [SESTDSIZE]
    omega

def createPool (sys : System) (s : REXXAPIDATA) : Option REXXAPIDATA :=
  if s.sebase then some s
  else if sys.getshmem SESTDSIZE then
    some { s with
      sebase := true
      sememsize := SESTDSIZE
      count := 0
      SEDATA := fun _ => .zero
      baseblock := fun _ => none }
  else none

/-- `RxAllocMem` in the registration pool. -/
def RxAllocMem (sys : System) (s : REXXAPIDATA) : Option (ℕ × REXXAPIDATA) :=
  match createPool sys s with
  | none => none
  | some s =>
    if APISIZE > s.sememsize - s.sememtop - 10 then
      match enlarge sys s.sememtop s.sememsize with
      | none => none
      | some size => some (s.count, { s with sememsize := size, count := s.count + 1 })
    else some (s.count, { s with count := s.count + 1 })

/-- The smaller segments of `RxFreeMem`: the size in the end, and whether all segments
were granted. -/
def shrink (sys : System) (top : ℕ) : ℕ → ℕ → ℕ × Bool
  | 0, sememsize => (sememsize, true)
  | fuel + 1, sememsize =>
    if top < sememsize / 2 - 10 ∧ sememsize > SESTDSIZE then
      if sys.getshmem (sememsize / 2) then shrink sys top fuel (sememsize / 2)
      else (sememsize, false)
    else (sememsize, true)

def closeGap (s : REXXAPIDATA) (block : ℕ) : REXXAPIDATA :=
  { s with
    count := s.count - 1
    SEDATA := fun i =>
      if i < block then s.SEDATA i
      else if i + 1 < s.count then s.SEDATA (i + 1)
      else if i + 1 = s.count then .zero
      else s.SEDATA i }

def repairChain (s : REXXAPIDATA) : REXXAPIDATA :=
  { s with
    SEDATA := fun i =>
      if i < s.count then { s.SEDATA i with next := if i = 0 then none else some (i - 1) }
      else s.SEDATA i
    baseblock := fun _ => if s.count = 0 then none else some (s.count - 1) }

/-- `RxFreeAPIBlock`, that is `RxFreeMem` in the registration pool. -/
def RxFreeAPIBlock (sys : System) (s : REXXAPIDATA) (block : ℕ) : REXXAPIDATA :=
  let s := closeGap s block
  let (size, granted) := shrink sys s.sememtop s.sememsize s.sememsize
  let s := { s with sememsize := size }
  if granted then repairChain s else s

def fitsName (name : Option PSZ) : Bool :=
  match name with
  | none => true
  | some name => decide (name.val.length < MAXNAME)

def RxAllocAPIBlock (sys : System) (s : REXXAPIDATA) (name : PSZ)
    (dll_name dll_proc : Option PSZ) : Option (ℕ × REXXAPIDATA) :=
  if fitsName (some name) && fitsName dll_name && fitsName dll_proc then
    match RxAllocMem sys s with
    | none => none
    | some (block, s) =>
      some (block, s.setBlock block { s.SEDATA block with
        apiname := name
        apidll_name := dll_name.getD emptyString
        apidll_proc := dll_proc.getD emptyString })
  else none

/-! ## Searching -/

/-- `strlen` of the module name is not 0. -/
def APIBLOCK.isDll (b : APIBLOCK) : Bool := decide (b.apidll_name ≠ emptyString)

def savedHandle (s : REXXAPIDATA) (p : Process) (b : APIBLOCK) : ℕ :=
  if s.pLibSave p.getpid ≠ 0 ∧ sameName b.apidll_name (s.szLibName p.getpid) then
    s.pLibSave p.getpid
  else 0

def isOwnOrFree (p : Process) (name : PSZ) (b : APIBLOCK) : Bool :=
  (b.apiownpid == p.getpid || b.apiownpid == 0) && sameName b.apiname name && b.isDll

def isOwnExe (p : Process) (name : PSZ) (b : APIBLOCK) : Bool :=
  b.apiownpid == p.getpid && sameName b.apiname name && !b.isDll

def isMain (name : PSZ) (b : APIBLOCK) : Bool :=
  b.apiFunRegFlag == 0 && sameName b.apiname name && b.isDll

def moveToFront (s : REXXAPIDATA) (type : RegType) (previous current : ℕ) : REXXAPIDATA :=
  let s := s.setBlock previous { s.SEDATA previous with next := s.link current }
  let s := s.setBlock current { s.SEDATA current with next := s.baseblock type }
  s.setBase type (some current)

def takeOwn (s : REXXAPIDATA) (p : Process) (type : RegType) (previous : Option ℕ)
    (current : ℕ) : REXXAPIDATA :=
  let s := s.setBlock current { s.SEDATA current with apiownpid := p.getpid }
  match previous with
  | none => s
  | some previous =>
    let s := moveToFront s type previous current
    s.setBlock current { s.SEDATA current with
      apimod_handle := savedHandle s p (s.SEDATA current) }

def takeExe (s : REXXAPIDATA) (type : RegType) (previous : Option ℕ) (current : ℕ) :
    REXXAPIDATA :=
  match previous with
  | none => s
  | some previous =>
    let s := moveToFront s type previous current
    s.setBlock current { s.SEDATA current with apimod_handle := 0 }

/-- The search for the main registration: the last one, or the first one that is the
process's own.  The outer `none` means that the chain does not end. -/
def mainLoop (s : REXXAPIDATA) (p : Process) (name : PSZ) :
    ℕ → Option ℕ → Option ℕ → Option (Option ℕ)
  | _, none, sblock => some sblock
  | 0, some _, _ => none
  | fuel + 1, some c, sblock =>
    if isMain name (s.SEDATA c) then
      if (s.SEDATA c).apiownpid = p.getpid then some (some c)
      else mainLoop s p name fuel (s.link c) (some c)
    else mainLoop s p name fuel (s.link c) sblock

def clonedBlock (s : REXXAPIDATA) (p : Process) (type : RegType) (b : APIBLOCK) : APIBLOCK :=
  { b with
    apipid := p.getpgrp
    apiownpid := p.getpid
    apiFunRegFlag := 1
    apiaddr := 0
    apimod_handle := savedHandle s p b
    next := s.baseblock type }

def cloneMain (sys : System) (s : REXXAPIDATA) (p : Process) (type : RegType) (name : PSZ)
    (sblock : ℕ) : Option ℕ × REXXAPIDATA :=
  match RxAllocAPIBlock sys s name none none with
  | none => (none, s)
  | some (nblock, s) =>
    (some nblock,
      (s.setBlock nblock (clonedBlock s p type (s.SEDATA sblock))).setBase type (some nblock))

/-- The part of `RegSearch` behind the first loop. -/
def searchMain (sys : System) (s : REXXAPIDATA) (p : Process) (name : PSZ) (type : RegType) :
    Option (Option ℕ × REXXAPIDATA) :=
  match mainLoop s p name s.count (s.baseblock type) none with
  | none => none
  | some none => some (none, s)
  | some (some sblock) =>
    let owner := (s.SEDATA sblock).apiownpid
    if owner ≠ p.getpid ∧ owner > 0 then some (cloneMain sys s p type name sblock)
    else some (some sblock, s)

/-- `RegSearch`; `all` stands for the search of all blocks, `'A'`.  The outer `none` means
that a loop does not end. -/
def RegSearch (sys : System) (s : REXXAPIDATA) (p : Process) (name : PSZ) (type : RegType)
    (all : Bool) : Option (Option ℕ × REXXAPIDATA) :=
  match all, s.baseblock type with
  | true, some base =>
    let test := fun c => isOwnOrFree p name (s.SEDATA c) || isOwnExe p name (s.SEDATA c)
    match Chain.search s.link test s.count none base with
    | none => none
    | some (some (previous, c)) =>
      if isOwnOrFree p name (s.SEDATA c) then some (some c, takeOwn s p type previous c)
      else some (some c, takeExe s type previous c)
    | some none => searchMain sys s p name type
  | _, _ => searchMain sys s p name type

/-! ## Registering -/

abbrev RXSUBCOM_OK : ℤ := 0
abbrev RXSUBCOM_DUP : ℤ := 10
abbrev RXSUBCOM_NOTREG : ℤ := 30
abbrev RXSUBCOM_NOEMEM : ℤ := 1002

def dllBlock (s : REXXAPIDATA) (p : Process) (UserArea : Option (List.Vector UInt8 USERLENGTH))
    (DropAuth : ℕ) (type : RegType) (b : APIBLOCK) : APIBLOCK :=
  { b with
    apiaddr := 0
    apiuser := UserArea.getD b.apiuser
    apidrop_auth := DropAuth
    apitype := 0
    apipid := p.getpgrp
    apiownpid := p.getpid
    next := s.baseblock type
    apimod_handle := savedHandle s p b }

def RegRegisterDll (sys : System) (s : REXXAPIDATA) (p : Process) (EnvName : PSZ)
    (ModuleName EntryPoint : Option PSZ) (UserArea : Option (List.Vector UInt8 USERLENGTH))
    (DropAuth : ℕ) (type : RegType) : Option (ℤ × REXXAPIDATA) :=
  match RegSearch sys s p EnvName type false with
  | none => none
  | some (some _, s) => some (RXSUBCOM_OK, s)
  | some (none, s) =>
    match RxAllocAPIBlock sys s EnvName ModuleName EntryPoint with
    | none => some (RXSUBCOM_NOEMEM, s)
    | some (cblock, s) =>
      let b := dllBlock s p UserArea DropAuth type (s.SEDATA cblock)
      some (RXSUBCOM_OK, (s.setBlock cblock b).setBase type (some cblock))

/-- `execheck`: whether the process registered this name by address. -/
def execheck (s : REXXAPIDATA) (p : Process) (name : PSZ) (type : RegType) : Option ℤ :=
  match s.baseblock type with
  | none => some RXSUBCOM_NOTREG
  | some base =>
    match Chain.search s.link (fun c => isOwnExe p name (s.SEDATA c)) s.count none base with
    | none => none
    | some (some _) => some RXSUBCOM_DUP
    | some none => some RXSUBCOM_NOTREG

/-- A new block, filled in for an address; 1 is `RXSUBCOM_NONDROP`. -/
def exeBlock (s : REXXAPIDATA) (p : Process) (EntryPoint : ℕ)
    (UserArea : Option (List.Vector UInt8 USERLENGTH)) (type : RegType) (CallType : ℤ)
    (b : APIBLOCK) : APIBLOCK :=
  { b with
    apiaddr := EntryPoint
    apiuser := UserArea.getD b.apiuser
    apidrop_auth := 1
    apiownpid := p.getpid
    apipid := p.getpgrp
    apitype := CallType
    next := s.baseblock type
    apiFunRegFlag := 1 }

def RegRegisterExe (sys : System) (s : REXXAPIDATA) (p : Process) (EnvName : PSZ) (EntryPoint : ℕ)
    (UserArea : Option (List.Vector UInt8 USERLENGTH)) (type : RegType) (CallType : ℤ) :
    Option (ℤ × REXXAPIDATA) :=
  match execheck s p EnvName type with
  | none => none
  | some rc =>
    if rc = RXSUBCOM_NOTREG then
      match RxAllocAPIBlock sys s EnvName none none with
      | none => some (RXSUBCOM_NOEMEM, s)
      | some (cblock, s) =>
        let b := exeBlock s p EntryPoint UserArea type CallType (s.SEDATA cblock)
        some (RXSUBCOM_OK, (s.setBlock cblock b).setBase type (some cblock))
    else some (rc, s)

/-! ## Querying and loading -/

/-- `RegQuery`: the return code, whether the handler exists, and its user data. -/
def RegQuery (sys : System) (s : REXXAPIDATA) (p : Process) (name : PSZ) (dll : Option PSZ)
    (type : RegType) :
    Option ((ℤ × Bool × Option (List.Vector UInt8 USERLENGTH)) × REXXAPIDATA) :=
  match RegSearch sys s p name type dll.isNone with
  | none => none
  | some (some c, s) => some ((RXSUBCOM_OK, true, some (s.SEDATA c).apiuser), s)
  | some (none, s) => some ((RXSUBCOM_NOTREG, false, none), s)

def characters (cs : List Char) : List UInt8 := cs.map fun c => c.toNat.toUInt8

def lib : List UInt8 := characters ['l', 'i', 'b']

/-- The file of a module; `ext` is the extension of shared libraries. -/
def libraryName (ext : List UInt8) (dll : PSZ) : List UInt8 :=
  if dll.val = characters ['R', 'E', 'X', 'X', 'U', 'T', 'I', 'L'] then
    lib ++ characters ['r', 'e', 'x', 'x', 'u', 't', 'i', 'l'] ++ ext
  else lib ++ dll.val.take (MAXNAME - 7) ++ ext

def openLibrary (sys : System) (ext : List UInt8) (b : APIBLOCK) : ℕ :=
  if b.apimod_handle ≠ 0 then b.apimod_handle
  else
    let handle := sys.dlopen (libraryName ext b.apidll_name)
    if handle ≠ 0 then handle
    else sys.dlopen (lib ++ b.apidll_name.val ++ ext)

def libraryAddress (sys : System) (ext : List UInt8) (b : APIBLOCK) : ℕ :=
  let plib := openLibrary sys ext b
  if plib = 0 then 0 else sys.dlsym plib b.apidll_proc

def removePool (s : REXXAPIDATA) : REXXAPIDATA :=
  if s.baseblock .REGSUBCOMM = none ∧ s.baseblock .REGSYSEXIT = none ∧
      s.baseblock .REGFUNCTION = none then
    { s with sebase := false }
  else s

def dropUnloaded (sys : System) (s : REXXAPIDATA) (type : RegType) : REXXAPIDATA :=
  match s.baseblock type with
  | none => removePool s
  | some base => removePool (RxFreeAPIBlock sys s base)

/-- `RegLoad`: the return code, the address and the handle of the library. -/
def RegLoad (sys : System) (ext : List UInt8) (s : REXXAPIDATA) (p : Process) (name : PSZ)
    (type : RegType) : Option ((ℤ × ℕ × ℕ) × REXXAPIDATA) :=
  match RegSearch sys s p name type true with
  | none => none
  | some (none, s) => some ((RXSUBCOM_NOTREG, 0, 0), s)
  | some (some c, s) =>
    let b := s.SEDATA c
    if b.apiaddr ≠ 0 then some ((RXSUBCOM_OK, b.apiaddr, 0), s)
    else
      let plib := openLibrary sys ext b
      let address := libraryAddress sys ext b
      if address = 0 then some ((1, 0, plib), dropUnloaded sys s type)
      else
        some ((RXSUBCOM_OK, address, plib),
          { s.setBlock c { b with apimod_handle := plib, apiaddr := address } with
            pLibSave := Function.update s.pLibSave p.getpid plib
            szLibName := Function.update s.szLibName p.getpid b.apidll_name })

/-! ## Deregistering -/

def realDll (dll : Option PSZ) : Option PSZ := dll.filter fun d => d ≠ emptyString

/-- The blocks that `RegDrop` drops. -/
def isDropped (name : PSZ) (dll : Option PSZ) (b : APIBLOCK) : Bool :=
  match realDll dll with
  | none => sameName b.apiname name
  | some dll => sameName b.apidll_name dll

/-- `RegDrop`: the blocks below the top become ones that are not main registrations. -/
def RegDrop (s : REXXAPIDATA) (name : PSZ) (dll : Option PSZ) : ℤ × REXXAPIDATA :=
  (if ∃ i < s.count, isDropped name dll (s.SEDATA i) then RXSUBCOM_OK else RXSUBCOM_NOTREG,
    { s with
      SEDATA := fun i =>
        if i < s.count ∧ isDropped name dll (s.SEDATA i) then
          { s.SEDATA i with apiFunRegFlag := 1 }
        else s.SEDATA i })

def isCleaned (sys : System) (p : Process) (b : APIBLOCK) : Bool :=
  b.apipid == p.getpgrp || b.apipid == 0 || (b.apipid != 0 && sys.kill b.apipid)

def resetMain (b : APIBLOCK) : APIBLOCK :=
  { b with apipid := 0, apiownpid := 0, apiaddr := 0, apimod_handle := 0 }

/-- The start of the chain `type` after a block was freed. -/
def newBase (s : REXXAPIDATA) : Option ℕ := if s.count = 0 then none else some (s.count - 1)

/-- The loop of `RegDeregFunc` over the blocks below `i`, from the last to the first. -/
def deregLoop (sys : System) (p : Process) (type : RegType) :
    ℕ → REXXAPIDATA → ℤ → ℤ × REXXAPIDATA
  | 0, s, rc => (rc, s)
  | i + 1, s, rc =>
    if isCleaned sys p (s.SEDATA i) then
      if (s.SEDATA i).apiFunRegFlag ≠ 0 then
        let s := RxFreeAPIBlock sys s i
        deregLoop sys p type i (s.setBase type (newBase s)) RXSUBCOM_OK
      else deregLoop sys p type i (s.setBlock i (resetMain (s.SEDATA i))) RXSUBCOM_OK
    else deregLoop sys p type i s rc

/-- `RegDeregFunc`; the libraries that it closes are outside the table. -/
def RegDeregFunc (sys : System) (s : REXXAPIDATA) (p : Process) (type : RegType) :
    ℤ × REXXAPIDATA :=
  let (rc, s) := deregLoop sys p type s.count s RXSUBCOM_NOTREG
  (rc, removePool { s with
    pLibSave := Function.update s.pLibSave p.getpid 0
    szLibName := Function.update s.szLibName p.getpid emptyString })

/-- The walk of `RxSubcomExitList` along one chain.  The address of the array
`apidll_name` is never `NULL`, so that no block is removed. -/
def exitListLoop (s : REXXAPIDATA) (type : RegType) : Option Unit :=
  match s.baseblock type with
  | none => some ()
  | some base => (Chain.search s.link (fun _ => false) s.count none base).map fun _ => ()

def RxSubcomExitList (s : REXXAPIDATA) : Option REXXAPIDATA :=
  if s.sebase then do
    exitListLoop s .REGSUBCOMM
    exitListLoop s .REGSYSEXIT
    exitListLoop s .REGFUNCTION
    return s
  else some s

/-- What `RxExitClearNormal` does to the table. -/
def RxExitClearNormal (sys : System) (s : REXXAPIDATA) (p : Process) : Option REXXAPIDATA :=
  RxSubcomExitList (RegDeregFunc sys s p .REGFUNCTION).2

/-! ## Runs -/

inductive Call where
  | registerDll (EnvName : PSZ) (ModuleName EntryPoint : Option PSZ)
      (UserArea : Option (List.Vector UInt8 USERLENGTH)) (DropAuth : ℕ) (type : RegType)
  | registerExe (EnvName : PSZ) (EntryPoint : ℕ)
      (UserArea : Option (List.Vector UInt8 USERLENGTH)) (type : RegType) (CallType : ℤ)
  | query (name : PSZ) (dll : Option PSZ) (type : RegType)
  | load (ext : List UInt8) (name : PSZ) (type : RegType)
  | drop (name : PSZ) (dll : Option PSZ) (type : RegType)
  | exitClearNormal
  | exitClear

structure Event where
  process : Process
  system : System
  call : Call

def step (s : REXXAPIDATA) (e : Event) : Option REXXAPIDATA :=
  let p := e.process
  let sys := e.system
  match e.call with
  | .registerDll name dll proc user auth type =>
    (RegRegisterDll sys s p name dll proc user auth type).map Prod.snd
  | .registerExe name address user type calltype =>
    (RegRegisterExe sys s p name address user type calltype).map Prod.snd
  | .query name dll type => (RegQuery sys s p name dll type).map Prod.snd
  | .load ext name type => (RegLoad sys ext s p name type).map Prod.snd
  | .drop name dll _ => some (RegDrop s name dll).2
  | .exitClearNormal => RxExitClearNormal sys s p
  | .exitClear => RxSubcomExitList s

def run (s : REXXAPIDATA) : List Event → Option REXXAPIDATA
  | [] => some s
  | e :: events => (step s e).bind fun s => run s events

end LeooRexx.SubcommandAPI
