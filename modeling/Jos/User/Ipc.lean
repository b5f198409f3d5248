import Jos.Kernel.Inbox

/-!
# Messages between user programs (`lib/ipc.c`)

What `ipc_recv` asks the kernel for, and what it makes of the answer. `r` is what the system
call returned, and the fields are those of `thisenv`, which is mapped for the program to read.

`Computes` and `Asks` are the two functions step by step, for messages without a page, as a
program calls them that does nothing else. A step is a read of `thisenv`, a decision or a
system call, so that the other environments may run between any two reads.
-/

namespace Jos

/-- No page is asked for with an address that cannot be mapped. -/
def recvArg (pg : Word) : Word := if pg ≠ 0 then pg else utop

/-- `*from_env_store`. -/
def Inbox.fromStore (i : Inbox) (r : Word) : Word := if r.slt 0 then 0 else i.sender

/-- `*perm_store`. -/
def Inbox.permStore (i : Inbox) (r : Word) : Word := if r.slt 0 then 0 else i.perm

/-- The value that `ipc_recv` returns. -/
def Inbox.recvValue (i : Inbox) (r : Word) : Word := if r.slt 0 then r else i.value

/-- The address that `ipc_send` passes for its page. -/
def sendArg (pg : Word) : Word := if pg = 0 then utop else pg

/-- A system call that may be in progress. -/
inductive Request where
  | trySend (toEnv value perm : Word)
  /-- `sys_yield` in the loop of `ipc_send`. -/
  | retry (toEnv value perm : Word)
  /-- `sys_yield` by the program itself. -/
  | yield
  | recv
  deriving DecidableEq

/-- Where an environment is in its program. -/
inductive Phase where
  /-- In neither function. -/
  | outside
  /-- At the head of the loop of `ipc_send`. -/
  | sending (toEnv value perm : Word)
  | asked (req : Request)
  | answered (req : Request) (r : Word)
  /-- `ipc_recv` has set `*from_env_store`. -/
  | reading (r sender : Word)
  | panicked
  deriving DecidableEq

/-- A step in user mode, with what a call of `ipc_recv` has returned: the value and
`*from_env_store`. -/
inductive Phase.Computes (i : Inbox) : Phase → Phase → List (Word × Word) → Prop
  | send (toEnv value perm : Word) : Computes i .outside (.sending toEnv value perm) []
  | panics {toEnv value perm r : Word} (error : r.slt 0) (other : r ≠ -eIpcNotRecv) :
      Computes i (.answered (.trySend toEnv value perm) r) .panicked []
  | sent {toEnv value perm r : Word} (fine : ¬ (r.slt 0 ∧ r ≠ -eIpcNotRecv))
      (arrived : r ≠ -eIpcNotRecv) :
      Computes i (.answered (.trySend toEnv value perm) r) .outside []
  | again {toEnv value perm r : Word} :
      Computes i (.answered (.retry toEnv value perm) r) (.sending toEnv value perm) []
  | yielded {r : Word} : Computes i (.answered .yield r) .outside []
  | readFrom {r : Word} : Computes i (.answered .recv r) (.reading r (i.fromStore r)) []
  | readValue {r sender : Word} :
      Computes i (.reading r sender) .outside [(i.recvValue r, sender)]

/-- A system call with the registers `tf`. Programs print now and then, and so does `panic`. -/
inductive Phase.Asks (tf : Trapframe) : Phase → Phase → Prop
  | trySend (call : tf.Calls .ipcTrySend) (srcva : tf.regs.ebx = sendArg 0) :
      Asks tf (.sending tf.regs.edx tf.regs.ecx tf.regs.edi)
        (.asked (.trySend tf.regs.edx tf.regs.ecx tf.regs.edi))
  | retry {toEnv value perm : Word} (call : tf.Calls .yield) :
      Asks tf (.answered (.trySend toEnv value perm) (-eIpcNotRecv))
        (.asked (.retry toEnv value perm))
  | yield (call : tf.Calls .yield) : Asks tf .outside (.asked .yield)
  | recv (call : tf.Calls .ipcRecv) (dstva : tf.regs.edx = recvArg 0) :
      Asks tf .outside (.asked .recv)
  | print {call : SysCall} {φ : Phase} (calls : tf.Calls call)
      (kind : call ∈ [SysCall.cputs, .cgetc, .getenvid]) (idle : φ ∈ [Phase.outside, .panicked]) :
      Asks tf φ φ

end Jos
