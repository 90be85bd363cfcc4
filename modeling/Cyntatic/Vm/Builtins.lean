import Cyntatic.Vm.Execute

/-! The native functions of the machine (`builtins.c`). Each of them checks the number of its arguments, calls a
    function of the operating system, and returns the result to the program. -/

namespace Cyntatic
open Library

/-- `BuiltinNativeCall` -/
inductive BuiltinNativeCall where
  | bncRead | bncWrite | bncOpen | bncClose | bncStat | bncFstat | bncLstat | bncPoll | bncLseek | bncPipe | bncSelect
  | bncDup | bncDup2 | bncGetpid | bncSendfile | bncSocket | bncConnect | bncAccept | bncSendto | bncRecvfrom
  | bncShutdown | bncBind | bncListen | bncGetsockname | bncGetpeername | bncFcntl | bncFlock | bncFsync | bncFetcwd
  | bncChdir | bncRename | bncMkdir | bncRmdir | bncCreat | bncLink | bncUnlink | bncSymlink
  deriving DecidableEq, Repr

namespace BuiltinNativeCall

/-- `VM_NATIVE_OS_FUNCS`, in its order. -/
def all : List BuiltinNativeCall :=
  [bncRead, bncWrite, bncOpen, bncClose, bncStat, bncFstat, bncLstat, bncPoll, bncLseek, bncPipe, bncSelect, bncDup,
   bncDup2, bncGetpid, bncSendfile, bncSocket, bncConnect, bncAccept, bncSendto, bncRecvfrom, bncShutdown, bncBind,
   bncListen, bncGetsockname, bncGetpeername, bncFcntl, bncFlock, bncFsync, bncFetcwd, bncChdir, bncRename, bncMkdir,
   bncRmdir, bncCreat, bncLink, bncUnlink, bncSymlink]

end BuiltinNativeCall

/-- The types of the parameters and the results of the functions that are called, by the bits that they keep of a
    word: `int`, `mode_t` and `socklen_t`, and the types of 64 bits. -/
inductive ArgType where
  | int | uint | word
  deriving DecidableEq, Repr

/-- A word after its conversion to a type. -/
def ArgType.convert : ArgType → U64 → U64
  | int, v => signTrunc 4 v
  | uint, v => (v.setWidth 32).setWidth 64
  | word, v => v

/-- The functions of the operating system: the result of a call, and what the memory of the machine holds after it. -/
structure Os where
  call : BuiltinNativeCall → List U64 → Memory → U64 × (Nat → U8)

/-- `vm` after a call of the operating system. -/
def Vm.afterCall (vm : Vm) (os : Os) (id : BuiltinNativeCall) (vals : List U64) : Vm :=
  { vm with ram := { vm.ram with bytes := (os.call id vals vm.ram).2 } }

namespace VmM
open Prog

/-- `args[-i]` -/
def arg (args : Option U64) (i : Nat) : VmM U64 :=
  match args with
  | some p => loadWord (p - BitVec.ofNat 64 (8 * i))
  | none => stop .wild

/-- The arguments from `args[-i]` on, converted to the types of the parameters. -/
def readArgs (args : Option U64) : (i : Nat) → (params : List ArgType) → VmM (List U64)
  | _, [] => return []
  | i, t :: params => do
    let v ← arg args i
    let vals ← readArgs args (i + 1) params
    return t.convert v :: vals

/-- A call of the operating system with these arguments, and the return of its result (`VM_return`). -/
def callOs (os : Os) (id : BuiltinNativeCall) (result : ArgType) (vals : List U64) : VmM Unit := do
  let vm ← get
  modify fun vm => vm.afterCall os id vals
  returnx (.host [result.convert (os.call id vals vm.ram).1]) 1

/-- A builtin that requires `n` arguments. `text` is what the assertion about their number says. -/
def native (os : Os) (id : BuiltinNativeCall) (n : Nat) (params : List ArgType) (result : ArgType) (text : String)
    (args : Option U64) (nargs : U32) : VmM Unit := do
  abortIf (nargs.toNat ≠ n) text []
  let vals ← readArgs args 0 params
  callOs os id result vals

section Builtins
variable (os : Os)

def vmBncWrite : Option U64 → U32 → VmM Unit :=
  native os .bncWrite 3 [.int, .word, .word] .word "(nargs == 3): BncWrite requires at 3 arguments"

def vmBncRead : Option U64 → U32 → VmM Unit :=
  native os .bncRead 3 [.int, .word, .word] .word "(nargs == 3): BncRead requires at 3 arguments"

/-- `mode` of `vmBncOpen`. -/
def openMode (args : Option U64) (nargs : U32) : VmM U64 :=
  if nargs = 3 then do return ArgType.uint.convert (← arg args 2) else pure 0o640

def vmBncOpen (args : Option U64) (nargs : U32) : VmM Unit := do
  abortIf (¬(nargs = 2 ∨ nargs = 3)) "(nargs == 2 || nargs == 3): BncOpen requires at least 2 arguments" []
  let vals ← readArgs args 0 [.word, .int]
  let mode ← openMode args nargs
  callOs os .bncOpen .int (vals ++ [mode])

def vmBncClose : Option U64 → U32 → VmM Unit :=
  native os .bncClose 1 [.int] .int "(nargs == 1): BncClose requires 1 argument"

def vmBncStat : Option U64 → U32 → VmM Unit :=
  native os .bncStat 2 [.word, .word] .int "(nargs == 2): BncStat requires 2 arguments"

def vmBncLstat : Option U64 → U32 → VmM Unit :=
  native os .bncLstat 2 [.word, .word] .int "(nargs == 2): BncLstat requires 2 arguments"

def vmBncFstat : Option U64 → U32 → VmM Unit :=
  native os .bncFstat 2 [.int, .word] .int "(nargs == 2): BncFstat requires 2 arguments"

def vmBncPoll : Option U64 → U32 → VmM Unit :=
  native os .bncPoll 3 [.word, .word, .int] .int "(nargs == 3): BncPoll requires 3 arguments"

def vmBncLseek : Option U64 → U32 → VmM Unit :=
  native os .bncLseek 3 [.int, .word, .int] .word "(nargs == 3): BncLseek requires 3 arguments"

def vmBncPipe : Option U64 → U32 → VmM Unit :=
  native os .bncPipe 1 [.word] .int "(nargs == 1): BncPipe requires 1 argument"

def vmBncSelect : Option U64 → U32 → VmM Unit :=
  native os .bncSelect 5 [.int, .word, .word, .word, .word] .int "(nargs == 5): BncSelect requires 5 arguments"

def vmBncDup : Option U64 → U32 → VmM Unit :=
  native os .bncDup 1 [.int] .int "(nargs == 1): BncDup requires 1 argument"

/-- `vmBncDup2`, which requires one argument and reads two. -/
def vmBncDup2 : Option U64 → U32 → VmM Unit :=
  native os .bncDup2 1 [.int, .int] .int "(nargs == 1): BncDup2 requires 1 argument"

def vmBncGetpid : Option U64 → U32 → VmM Unit :=
  native os .bncGetpid 0 [] .int "(nargs == 0): BncGetpid requires 0 arguments"

def vmBncSendfile : Option U64 → U32 → VmM Unit :=
  native os .bncSendfile 4 [.int, .int, .word, .word] .word "(nargs == 4): BncSendfile requires 4 argument"

def vmBncSocket : Option U64 → U32 → VmM Unit :=
  native os .bncSocket 3 [.int, .int, .int] .int "(nargs == 3): BncSocket requires 3 arguments"

def vmBncConnect : Option U64 → U32 → VmM Unit :=
  native os .bncConnect 3 [.int, .word, .uint] .int "(nargs == 3): BncConnect requires 3 arguments"

def vmBncAccept : Option U64 → U32 → VmM Unit :=
  native os .bncAccept 3 [.int, .word, .word] .int "(nargs == 3): BncConnect requires 3 arguments"

def vmBncSendto : Option U64 → U32 → VmM Unit :=
  native os .bncSendto 6 [.int, .word, .word, .int, .word, .uint] .word "(nargs == 6): BncSendto requires 6 arguments"

def vmBncRecvfrom : Option U64 → U32 → VmM Unit :=
  native os .bncRecvfrom 6 [.int, .word, .word, .int, .word, .word] .word "(nargs == 6): BncRecvfrom requires 6 arguments"

def vmBncShutdown : Option U64 → U32 → VmM Unit :=
  native os .bncShutdown 2 [.int, .int] .int "(nargs == 2): BncShutdown requires 2 arguments"

def vmBncBind : Option U64 → U32 → VmM Unit :=
  native os .bncBind 3 [.int, .word, .uint] .int "(nargs == 3): BncBind requires 3 arguments"

def vmBncListen : Option U64 → U32 → VmM Unit :=
  native os .bncListen 2 [.int, .int] .int "(nargs == 2): BncListen requires 2 arguments"

def vmBncGetsockname : Option U64 → U32 → VmM Unit :=
  native os .bncGetsockname 3 [.int, .word, .word] .int "(nargs == 3): BncGetsockname requires 3 arguments"

def vmBncGetpeername : Option U64 → U32 → VmM Unit :=
  native os .bncGetpeername 3 [.int, .word, .word] .int "(nargs == 3): BncGetpeername requires 3 arguments"

/-- `vmBncFcntl`, which passes a third argument on when there are two arguments, and not when there are three. -/
def vmBncFcntl (args : Option U64) (nargs : U32) : VmM Unit := do
  abortIf (¬(nargs = 2 ∨ nargs = 3)) "(nargs == 2 || nargs == 3): BncFcntl requires 2 or 3 arguments" []
  let vals ← readArgs args 0 [.int, .int]
  if nargs = 2 then callOs os .bncFcntl .int (vals ++ [← arg args 2])
  else callOs os .bncFcntl .int vals

/-- The builtins that the macro `UU` makes, which all fail. -/
def unimplemented (name : String) : VmM Unit :=
  abort ("(false): Builtin native call '" ++ name ++ "' not implemented") []

/-- `vmNativeBuiltinCallTbl` -/
def vmNativeBuiltinCallTbl (id : BuiltinNativeCall) (args : Option U64) (nargs : U32) : VmM Unit :=
  match id with
  | .bncRead => vmBncRead os args nargs
  | .bncWrite => vmBncWrite os args nargs
  | .bncOpen => vmBncOpen os args nargs
  | .bncClose => vmBncClose os args nargs
  | .bncStat => vmBncStat os args nargs
  | .bncFstat => vmBncFstat os args nargs
  | .bncLstat => vmBncLstat os args nargs
  | .bncPoll => vmBncPoll os args nargs
  | .bncLseek => vmBncLseek os args nargs
  | .bncPipe => vmBncPipe os args nargs
  | .bncSelect => vmBncSelect os args nargs
  | .bncDup => vmBncDup os args nargs
  | .bncDup2 => vmBncDup2 os args nargs
  | .bncGetpid => vmBncGetpid os args nargs
  | .bncSendfile => vmBncSendfile os args nargs
  | .bncSocket => vmBncSocket os args nargs
  | .bncConnect => vmBncConnect os args nargs
  | .bncAccept => vmBncAccept os args nargs
  | .bncSendto => vmBncSendto os args nargs
  | .bncRecvfrom => vmBncRecvfrom os args nargs
  | .bncShutdown => vmBncShutdown os args nargs
  | .bncBind => vmBncBind os args nargs
  | .bncListen => vmBncListen os args nargs
  | .bncGetsockname => vmBncGetsockname os args nargs
  | .bncGetpeername => vmBncGetpeername os args nargs
  | .bncFcntl => vmBncFcntl os args nargs
  | .bncFlock => unimplemented "flock"
  | .bncFsync => unimplemented "fsync"
  | .bncFetcwd => unimplemented "getcwd"
  | .bncChdir => unimplemented "chdir"
  | .bncRename => unimplemented "rename"
  | .bncMkdir => unimplemented "mkdir"
  | .bncRmdir => unimplemented "rmdir"
  | .bncCreat => unimplemented "creat"
  | .bncLink => unimplemented "link"
  | .bncUnlink => unimplemented "unlink"
  | .bncSymlink => unimplemented "symlink"

end Builtins

end VmM

/-- `fn` of `ApplyNcall`: a builtin by its number, or what lies at an address of the process. -/
def Host.builtins (os : Os) (others : Host) : Host where
  native id args nargs vm :=
    match BuiltinNativeCall.all[id.toNat]? with
    | some bnc => (VmM.vmNativeBuiltinCallTbl os bnc args nargs vm).2
    | none => others.native id args nargs vm

end Cyntatic
