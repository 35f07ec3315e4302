/-
The server of `src/core/server.c`.

A `struct fh_port_table_entry` is given by its position in the list of those that
were allocated, a virtual host by its position in the configuration.  What the
allocations and the calls to the kernel answer is an argument: one `IdAlloc` for
every id of the configuration and one `SocketCalls` for every call of
`fh_server_create_socket`.

The functions whose names end in `On` have the sockets of the process beside the
server.  The server's part does not depend on these (`fhServerCreateOn_fst` in
`ServerSockets.lean`), and has the plain names.

`live` is what was allocated or opened and not yet freed or closed.  A hash table
counts as one resource; its arrays and the copies of its keys are its own.  The
outer `none` is undefined behaviour: a pointer to nothing is followed, or
something is freed twice.
-/
import Freehttpd.HtableOwnership
import Freehttpd.IntHtable

namespace Freehttpd

/-! ### Configuration -/

/-- `struct fh_config_vhost_id`. -/
structure FhConfigVhostId where
  hostname : StrKey
  port : UInt16

/-- `struct fh_config_vhost`. -/
structure FhConfigVhost where
  idList : List FhConfigVhostId

/-- `struct fh_config`. -/
structure FhConfig where
  vhosts : List FhConfigVhost

/-! ### Data -/

/-- `struct fh_port_table_entry`. -/
structure FhPortTableEntry where
  hostConfigTable : Htable StrKey ℕ
  sockfd : ℕ

/-- Something that must be freed or closed. -/
inductive Resource
  | server
  | portTable
  | portEntry (entry : ℕ)
  | hostTable (entry : ℕ)
  | socket (fd : ℕ)
deriving DecidableEq

/-- `free` and `close`. -/
def giveUp (r : Resource) (live : List Resource) : Option (List Resource) :=
  if r ∈ live then some (live.erase r) else none

/-- The server's `port_table`, the port table entries, the sockets that were created,
each with its port, and the resources. -/
structure ServerState where
  portTable : Htable IntKey ℕ
  portEntries : List FhPortTableEntry
  sockets : List (ℕ × UInt16)
  live : List Resource

/-- `(uint64_t) port`, as a key. -/
def portKey (port : UInt16) : IntKey := ⟨port.toUInt64⟩

/-! ### The sockets of the process -/

/-- `struct sockaddr_in`; the port is in network byte order. -/
structure SockaddrIn where
  sinFamily : ℕ
  sinPort : UInt16
  sAddr : UInt32
deriving DecidableEq

/-- A socket of the process: its options, its file status flags, the address that it is
bound to, and whether it listens. -/
structure Socket where
  reuseaddr : ℕ
  reuseport : ℕ
  rcvtimeo : ℕ
  sndtimeo : ℕ
  flags : UInt32
  bound : Option SockaddrIn
  listening : Bool
deriving DecidableEq

/-- The sockets of the process by their descriptors. -/
abbrev Kernel := ℕ → Option Socket

/-- A process without sockets. -/
def noSockets : Kernel := fun _ => none

/-- `O_NONBLOCK`. -/
def oNonblock : UInt32 := 0x800

/-- `AF_INET`. -/
def afInet : ℕ := 2

/-- `INADDR_ANY`. -/
def inaddrAny : UInt32 := 0

/-- `htons`, on a little endian machine. -/
def htons (port : UInt16) : UInt16 := port <<< 8 ||| port >>> 8

/-- A socket as `socket` returns it: it can be read and written. -/
def Socket.new : Socket :=
  { reuseaddr := 0, reuseport := 0, rcvtimeo := 0, sndtimeo := 0, flags := 2, bound := none,
    listening := false }

/-- `socket`, with the descriptor that it answers. -/
def Kernel.opened (k : Kernel) (fd : ℕ) : Kernel := Function.update k fd (some Socket.new)

/-- A call that changes the socket behind a descriptor. -/
def Kernel.change (k : Kernel) (fd : ℕ) (f : Socket → Socket) : Kernel :=
  Function.update k fd ((k fd).map f)

/-- `close`. -/
def Kernel.close (k : Kernel) (fd : ℕ) : Kernel := Function.update k fd none

/-- `listen`. -/
def Kernel.listen (k : Kernel) (fd : ℕ) : Kernel :=
  k.change fd fun sock => { sock with listening := true }

/-- What the system calls of `fh_server_create_socket` answer: the descriptor, and
whether the calls that set it up succeed. -/
structure SocketCalls where
  socket : Option ℕ
  reuseaddr : Bool
  reuseport : Bool
  rcvtimeo : Bool
  sndtimeo : Bool
  getfl : Bool
  setfl : Bool
  bind : Bool

/-- `util_fd_set_nonblocking`. -/
def utilFdSetNonblocking (calls : SocketCalls) (fd : ℕ) (k : Kernel) : Bool × Kernel :=
  if calls.getfl then
    if calls.setfl then (true, k.change fd fun s => { s with flags := s.flags ||| oNonblock })
    else (false, k)
  else (false, k)

/-- `create_socket_err`. -/
def createSocketErr (sockfd : ℕ) (live : List Resource) (k : Kernel) :
    Option ((Option ℕ × List Resource) × Kernel) := do
  let live ← giveUp (.socket sockfd) live
  some ((none, live), k.close sockfd)

/-- `fh_server_create_socket`; the inner `none` is -1. -/
def fhServerCreateSocket (calls : SocketCalls) (port : UInt16) (live : List Resource)
    (k : Kernel) : Option ((Option ℕ × List Resource) × Kernel) :=
  match calls.socket with
  | none => some ((none, live), k)
  | some sockfd =>
    let live := .socket sockfd :: live
    let k := k.opened sockfd
    let val := 1
    if calls.reuseaddr then
      let k := k.change sockfd fun s => { s with reuseaddr := val }
      if calls.reuseport then
        let k := k.change sockfd fun s => { s with reuseport := val }
        let tv := 10
        if calls.rcvtimeo then
          let k := k.change sockfd fun s => { s with rcvtimeo := tv }
          if calls.sndtimeo then
            let k := k.change sockfd fun s => { s with sndtimeo := tv }
            let (ok, k) := utilFdSetNonblocking calls sockfd k
            if ok then
              let srvAddr : SockaddrIn :=
                { sinFamily := afInet, sinPort := htons port, sAddr := inaddrAny }
              if calls.bind then
                some ((some sockfd, live),
                  k.change sockfd fun s => { s with bound := some srvAddr })
              else createSocketErr sockfd live k
            else createSocketErr sockfd live k
          else createSocketErr sockfd live k
        else createSocketErr sockfd live k
      else createSocketErr sockfd live k
    else createSocketErr sockfd live k

/-! ### Loading the configuration -/

/-- What the allocations for one id answer: `malloc` of the port table entry,
`str_htable_create`, and those in `int_htable_set` and `str_htable_set`. -/
structure IdAlloc where
  portEntry : Bool
  hostTable : CreateAlloc
  portCalloc : Bool
  portMalloc : Bool
  portShrink : Bool
  hostCalloc : Bool
  hostMalloc : Bool
  hostDup : Option ℕ
  hostShrink : Bool

/-- The allocations in `int_htable_set`. -/
def IdAlloc.portSet (al : IdAlloc) (key : IntKey) : SetAlloc IntKey key :=
  intSetAlloc al.portCalloc al.portMalloc al.portShrink key

/-- The allocations in `str_htable_set`. -/
def IdAlloc.hostSet (al : IdAlloc) (key : StrKey) : SetAlloc StrKey key :=
  strSetAlloc al.hostCalloc al.hostMalloc al.hostDup al.hostShrink key

/-- The last statement of the loop body: the hostname is mapped to the virtual host.
The return value of `str_htable_set` is not looked at. -/
def setHostname (al : IdAlloc) (vhost : ℕ) (hostname : StrKey) (s : ServerState) (entry : ℕ) :
    Option ServerState := do
  let portEntry ← s.portEntries[entry]?
  -- Without memory the table is left as it was, and nobody notices.
  let r ← htableSetWithFlag portEntry.hostConfigTable hostname (some vhost)
    (al.hostSet hostname) false
  some { s with
    portEntries := s.portEntries.set entry { portEntry with hostConfigTable := r.table } }

/-- The creation of a port table entry; the inner `none` is `return false`.  The return
value of `int_htable_set` is not looked at. -/
def createPortEntry (al : IdAlloc) (port : UInt16) (s : ServerState) :
    Option (Option (ℕ × ServerState)) :=
  if al.portEntry then do
    let entry := s.portEntries.length
    let live := .portEntry entry :: s.live
    match ← htableCreate al.hostTable 16 with
    | none => do
      let _ ← giveUp (.portEntry entry) live
      some none
    | some hostConfigTable => do
      -- If this fails, the entry is lost: the next id with its port creates another one.
      let r ← htableSetWithFlag s.portTable (portKey port) (some entry)
        (al.portSet (portKey port)) false
      some (some (entry,
        { s with
          portTable := r.table
          portEntries := s.portEntries ++ [{ hostConfigTable := hostConfigTable, sockfd := 0 }]
          live := .hostTable entry :: live }))
  else some none

/-- The body of the inner loop of `fh_server_process_config`; the flag says whether the
loops go on. -/
def processId (al : IdAlloc) (vhost : ℕ) (id : FhConfigVhostId) (s : ServerState) :
    Option (Bool × ServerState) := do
  match ← htableGet s.portTable (portKey id.port) with
  | some entry => do
    let s ← setHostname al vhost id.hostname s entry
    some (true, s)
  | none => do
    match ← createPortEntry al id.port s with
    | none => some (false, s)
    | some (entry, s) => do
      let s ← setHostname al vhost id.hostname s entry
      some (true, s)

/-- The inner loop, over the ids of a virtual host from number `j` on. -/
def processIds (al : ℕ → IdAlloc) (vhost : ℕ) :
    List FhConfigVhostId → ℕ → ServerState → Option (Bool × ServerState)
  | [], _, s => some (true, s)
  | id :: ids, j, s => do
    let (more, s) ← processId (al j) vhost id s
    if more then processIds al vhost ids (j + 1) s else some (false, s)

/-- The outer loop, over the virtual hosts from number `i` on. -/
def processVhosts (al : ℕ → ℕ → IdAlloc) :
    List FhConfigVhost → ℕ → ServerState → Option (Bool × ServerState)
  | [], _, s => some (true, s)
  | vhost :: vhosts, i, s => do
    let (more, s) ← processIds (al i) i vhost.idList 0 s
    if more then processVhosts al vhosts (i + 1) s else some (false, s)

/-- The loop that creates the sockets, over what `int_htable_foreach` meets; `n` counts
the calls of `fh_server_create_socket`. -/
def createSockets (calls : ℕ → SocketCalls) :
    List (IntKey × Option ℕ) → ℕ → ServerState → Kernel → Option ((Bool × ServerState) × Kernel)
  | [], _, s, k => some ((true, s), k)
  | (key, data) :: entries, n, s, k => do
    let port := key.key.toUInt16
    match ← fhServerCreateSocket (calls n) port s.live k with
    -- The sockets of the entries before this one stay open.
    | ((none, live), k) => some ((false, { s with live := live }), k)
    | ((some sockfd, live), k) => do
      let entry ← data
      let portEntry ← s.portEntries[entry]?
      createSockets calls entries (n + 1)
        { s with
          portEntries := s.portEntries.set entry { portEntry with sockfd := sockfd }
          sockets := s.sockets ++ [(sockfd, port)]
          live := live } k

/-- What the allocations and the kernel answer to `fh_server_create`. -/
structure ServerEnv where
  server : Bool
  portTable : CreateAlloc
  id : ℕ → ℕ → IdAlloc
  socket : ℕ → SocketCalls

/-- `fh_server_process_config`. -/
def fhServerProcessConfigOn (env : ServerEnv) (config : FhConfig) (s : ServerState)
    (k : Kernel) : Option ((Bool × ServerState) × Kernel) := do
  let (more, s) ← processVhosts env.id config.vhosts 0 s
  if more then do
    let entries ← htableContents s.portTable
    createSockets env.socket entries 0 s k
  else some ((false, s), k)

/-- The server's part of `fh_server_process_config`. -/
def fhServerProcessConfig (env : ServerEnv) (config : FhConfig) (s : ServerState) :
    Option (Bool × ServerState) :=
  (fhServerProcessConfigOn env config s noSockets).map Prod.fst

/-! ### Creating and freeing a server -/

/-- `fh_server_port_table_entry_cleanup`. -/
def fhServerPortTableEntryCleanup (portEntries : List FhPortTableEntry)
    (live : List Resource) (ptr : Option ℕ) : Option (List Resource) := do
  let entry ← ptr
  let portEntry ← portEntries[entry]?
  let _ ← htableFree portEntry.hostConfigTable (portEntry.hostConfigTable.count + 1)
  -- `sockfd` is not closed.
  let live ← giveUp (.hostTable entry) live
  giveUp (.portEntry entry) live

/-- `fh_server_free`, with the resources that are left. -/
def fhServerFree (s : ServerState) : Option (List Resource) := do
  let r ← htableFreeWithCleanup s.portTable true (s.portTable.count + 1)
  let live ← r.calls.foldlM (fhServerPortTableEntryCleanup s.portEntries) s.live
  let live ← giveUp .portTable live
  giveUp .server live

/-- What `fh_server_create` returns, `none` being `NULL`, and the resources that are
live then. -/
structure CreateResult where
  server : Option ServerState
  live : List Resource

/-- `fh_server_create`. -/
def fhServerCreateOn (env : ServerEnv) (config : FhConfig) (k : Kernel) :
    Option (CreateResult × Kernel) :=
  if env.server then do
    let live := [.server]
    match ← htableCreate env.portTable 16 with
    | none => do
      let live ← giveUp .server live
      some (⟨none, live⟩, k)
    | some portTable => do
      let ((ok, s), k) ← fhServerProcessConfigOn env config
        { portTable := portTable, portEntries := [], sockets := [], live := .portTable :: live } k
      if ok then some (⟨some s, s.live⟩, k)
      else do
        -- `int_htable_free` does not call the cleanup of the entries.
        let _ ← htableFree s.portTable (s.portTable.count + 1)
        let live ← giveUp .portTable s.live
        let live ← giveUp .server live
        some (⟨none, live⟩, k)
  else some (⟨none, []⟩, k)

/-- The server's part of `fh_server_create`. -/
def fhServerCreate (env : ServerEnv) (config : FhConfig) : Option CreateResult :=
  (fhServerCreateOn env config noSockets).map Prod.fst

/-! ### Listening -/

/-- The loop of `fh_server_listen`; `n` counts the calls of `listen`. -/
def listenOn (s : ServerState) (answers : ℕ → Bool) :
    List (IntKey × Option ℕ) → ℕ → Kernel → Option (Bool × Kernel)
  | [], _, k => some (true, k)
  | (_, data) :: entries, n, k => do
    let entry ← data
    let portEntry ← s.portEntries[entry]?
    if answers n then listenOn s answers entries (n + 1) (k.listen portEntry.sockfd)
    else some (false, k)

/-- `fh_server_listen`. -/
def fhServerListen (answers : ℕ → Bool) (s : ServerState) (k : Kernel) :
    Option (Bool × Kernel) := do
  let entries ← htableContents s.portTable
  listenOn s answers entries 0 k

end Freehttpd
