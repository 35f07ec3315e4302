/-
The server and the kernel's sockets, from `fh_server_create` to `fh_server_listen`.

* `Bound` — the kernel has a ready socket for each port, and some of them listen;
* `createSockets_bound` — a socket that cannot be set up leaves the kernel as it was, and
  the loop opens one socket for each port;
* `listenOn_eq` — the loop of `fh_server_listen` lets them listen one after the other;
* `server_startup` — after both calls one socket for each port of the port table is
  bound to it, and a prefix of them listens: all of them if the server does;
* `server_startup_ports` — if every call succeeds these are the ports of the configuration.
-/
import Freehttpd.ServerConfig

namespace Freehttpd

/-! ### The loop over the ports -/

/-- `socket` answers no descriptor that is open, be it from before or by an earlier one
of the calls from number `n` on. -/
def SocketsFresh (calls : ℕ → SocketCalls) (n : ℕ) (k : Kernel) : Prop :=
  ∀ j ≥ n, ∀ fd, (calls j).socket = some fd →
    k fd = none ∧ ∀ i ≥ n, i < j → (calls i).socket ≠ some fd

theorem SocketsFresh.next {calls : ℕ → SocketCalls} {n : ℕ} {k : Kernel}
    (h : SocketsFresh calls n k) {fd : ℕ} (hfd : (calls n).socket = some fd)
    (sock : Option Socket) : SocketsFresh calls (n + 1) (Function.update k fd sock) := by
  intro j hj fd' hfd'
  obtain ⟨hnone, hother⟩ := h j (by omega) fd' hfd'
  have hne : fd' ≠ fd := by
    rintro rfl
    exact hother n (Nat.le_refl n) (by omega) hfd
  exact ⟨by rw [Function.update_of_ne hne, hnone], fun i hi => hother i (by omega)⟩

/-- The entry of the port table belongs to the port and has the socket. -/
def PortSocket (s : ServerState) (q : IntKey × Option ℕ) (p : UInt16 × ℕ) : Prop :=
  q.1.key.toUInt16 = p.1 ∧ ∃ entry pe, q.2 = some entry ∧ s.portEntries[entry]? = some pe ∧
    pe.sockfd = p.2

/-- The kernel has a ready socket for each of the ports, listening for the first `n` of
them, and is as before elsewhere. -/
structure Bound (k₀ k : Kernel) (ports : List (UInt16 × ℕ)) (n : ℕ) : Prop where
  fresh : ∀ p ∈ ports, k₀ p.2 = none
  nodup : (ports.map Prod.snd).Nodup
  sockets : ∀ i p, ports[i]? = some p →
    k p.2 = some { Socket.ready p.1 with listening := i < n }
  frame : ∀ fd, fd ∉ ports.map Prod.snd → k fd = k₀ fd

/-- Before the first port. -/
theorem Bound.nil (k : Kernel) : Bound k k [] 0 := by
  refine ⟨?_, List.nodup_nil, ?_, fun _ _ => rfl⟩
  · intro p hp
    cases hp
  · intro i p hp
    cases hp

/-- A port before the others, with a descriptor that is not theirs. -/
theorem Bound.cons {k k' : Kernel} {port : UInt16} {fd : ℕ} {ports : List (UInt16 × ℕ)}
    (h : Bound (Function.update k fd (some (Socket.ready port))) k' ports 0)
    (hnone : k fd = none) (hnew : fd ∉ ports.map Prod.snd) :
    Bound k k' ((port, fd) :: ports) 0 := by
  constructor
  · intro p hp
    rcases List.mem_cons.mp hp with rfl | hp
    · exact hnone
    · have hne : p.2 ≠ fd := fun he => hnew (List.mem_map.mpr ⟨p, hp, he⟩)
      rw [← h.fresh p hp, Function.update_of_ne hne]
  · exact List.nodup_cons.mpr ⟨hnew, h.nodup⟩
  · intro i p hp
    cases i with
    | zero =>
      obtain rfl := Option.some.inj hp
      rw [h.frame fd hnew, Function.update_self]
      rfl
    | succ i => exact h.sockets i p hp
  · intro fd' hfd'
    rw [List.map_cons, List.mem_cons, not_or] at hfd'
    rw [h.frame fd' hfd'.2, Function.update_of_ne hfd'.1]

/-- A socket that is opened and closed again leaves no trace. -/
theorem SocketsFresh.close {calls : ℕ → SocketCalls} {n : ℕ} {k : Kernel}
    (h : SocketsFresh calls n k) : (calls n).socket.elim k k.close = k := by
  cases hfd : (calls n).socket with
  | none => rfl
  | some fd =>
    show k.close fd = k
    rw [Kernel.close, ← (h n (Nat.le_refl n) fd hfd).1, Function.update_eq_self]

/-- The loop opens the sockets of a prefix of the entries, which is all of them if it gets
to its end. -/
theorem createSockets_bound {calls : ℕ → SocketCalls} {entries : List (IntKey × Option ℕ)}
    {n : ℕ} {s s' : ServerState} {k k' : Kernel} {more : Bool} (hfresh : SocketsFresh calls n k)
    (hnodup : (entries.map Prod.snd).Nodup)
    (h : createSockets calls entries n s k = some ((more, s'), k')) :
    ∃ ports : List (UInt16 × ℕ), Bound k k' ports 0 ∧
      List.Forall₂ (PortSocket s') (entries.take ports.length) ports ∧
      (∀ p ∈ ports, ∃ j ≥ n, (calls j).socket = some p.2) ∧
      (∀ entry, some entry ∉ entries.map Prod.snd →
        s'.portEntries[entry]? = s.portEntries[entry]?) ∧
      (more = true → ports.length = entries.length) := by
  induction entries generalizing n s k with
  | nil =>
    obtain ⟨hs, rfl⟩ := Prod.mk.inj (Option.some.inj h)
    obtain ⟨rfl, rfl⟩ := Prod.mk.inj hs
    refine ⟨[], Bound.nil k, List.Forall₂.nil, ?_, fun _ _ => rfl, fun _ => rfl⟩
    intro p hp
    cases hp
  | cons q entries ih =>
    obtain ⟨key, data⟩ := q
    rw [createSockets] at h
    rw [List.map_cons, List.nodup_cons] at hnodup
    rcases fhServerCreateSocket_cases (calls n) key.key.toUInt16 s.live k with
      ⟨-, hone⟩ | ⟨-, fd, hfd, hone⟩
    · rw [hone, hfresh.close] at h
      obtain ⟨hs, rfl⟩ := Prod.mk.inj (Option.some.inj h)
      obtain ⟨rfl, rfl⟩ := Prod.mk.inj hs
      refine ⟨[], Bound.nil k, List.Forall₂.nil, ?_, fun _ _ => rfl,
        fun hf => Bool.noConfusion hf⟩
      intro p hp
      cases hp
    · simp only [hone, Option.bind_eq_bind, Option.bind_some] at h
      obtain ⟨entry, rfl, hentry⟩ := Option.bind_eq_some_iff.mp h
      obtain ⟨pe, hpe, hrest⟩ := Option.bind_eq_some_iff.mp hentry
      obtain ⟨ports, hbound, hports, hcalls, hother, hlen⟩ :=
        ih (hfresh.next hfd _) hnodup.2 hrest
      have hnone : k fd = none := (hfresh n (Nat.le_refl n) fd hfd).1
      -- The kernel answers other descriptors to the calls after this one.
      have hnew : fd ∉ ports.map Prod.snd := by
        intro hmem
        obtain ⟨p, hp, rfl⟩ := List.mem_map.mp hmem
        obtain ⟨j, hj, hj'⟩ := hcalls p hp
        exact (hfresh j (by omega) _ hj').2 n (Nat.le_refl n) (by omega) hfd
      have hlt : entry < s.portEntries.length := (List.getElem?_eq_some_iff.mp hpe).1
      refine ⟨(key.key.toUInt16, fd) :: ports, hbound.cons hnone hnew, ?_, ?_, ?_, ?_⟩
      · refine List.Forall₂.cons ⟨rfl, entry, { pe with sockfd := fd }, rfl, ?_, rfl⟩ hports
        rw [hother entry hnodup.1, List.getElem?_set_self hlt]
      · intro p hp
        rcases List.mem_cons.mp hp with rfl | hp
        · exact ⟨n, Nat.le_refl n, hfd⟩
        · obtain ⟨j, hj, hj'⟩ := hcalls p hp
          exact ⟨j, by omega, hj'⟩
      · intro e he
        rw [List.map_cons, List.mem_cons, not_or] at he
        rw [hother e he.2, List.getElem?_set_ne fun heq => he.1 (congrArg some heq.symm)]
      · intro hm
        rw [List.length_cons, List.length_cons, hlen hm]

/-! ### Creating and listening -/

/-- The next socket begins to listen. -/
theorem Bound.listen {k₀ k : Kernel} {ports : List (UInt16 × ℕ)} {n : ℕ}
    (h : Bound k₀ k ports n) {p : UInt16 × ℕ} (hp : ports[n]? = some p) :
    Bound k₀ (k.listen p.2) ports (n + 1) := by
  constructor
  · exact h.fresh
  · exact h.nodup
  · intro i q hq
    by_cases hin : i = n
    · subst hin
      obtain rfl := Option.some.inj (hp.symm.trans hq)
      rw [Kernel.listen, Kernel.change, Function.update_self, h.sockets i p hq]
      simp
    · -- Another socket has another descriptor.
      have hne : q.2 ≠ p.2 := by
        intro he
        have hlt : i < (ports.map Prod.snd).length := by
          rw [List.length_map]
          exact (List.getElem?_eq_some_iff.mp hq).1
        refine hin ((List.getElem?_inj hlt h.nodup).mp ?_)
        rw [List.getElem?_map, List.getElem?_map, hq, hp, Option.map_some, Option.map_some, he]
      rw [Kernel.listen, Kernel.change, Function.update_of_ne hne, h.sockets i q hq]
      have hiff : (i < n) ↔ i < n + 1 := by omega
      simp only [hiff]
  · intro fd hfd
    have hne : fd ≠ p.2 := by
      rintro rfl
      exact hfd (List.mem_map_of_mem (List.mem_of_getElem? hp))
    rw [Kernel.listen, Kernel.change, Function.update_of_ne hne, h.frame fd hfd]

/-- The loop of `fh_server_listen`, behind the ports that it has done. -/
theorem listenOn_eq {s : ServerState} {answers : ℕ → Bool} {k₀ : Kernel}
    {ports : List (UInt16 × ℕ)} (done : List (UInt16 × ℕ)) {entries : List (IntKey × Option ℕ)}
    {k : Kernel} (hports : List.Forall₂ (PortSocket s) entries ports)
    (hbound : Bound k₀ k (done ++ ports) done.length) :
    ∃ m k', listenOn s answers entries done.length k = some (decide (m = ports.length), k') ∧
      m ≤ ports.length ∧ (∀ i < m, answers (done.length + i) = true) ∧
      (m < ports.length → answers (done.length + m) = false) ∧
      Bound k₀ k' (done ++ ports) (done.length + m) := by
  induction hports generalizing done k with
  | nil => exact ⟨0, k, rfl, Nat.le_refl 0, fun i hi => absurd hi (Nat.not_lt_zero i),
      fun hlt => absurd hlt (Nat.lt_irrefl 0), hbound⟩
  | @cons q p entries ports hqp hports ih =>
    obtain ⟨key, data⟩ := q
    obtain ⟨-, entry, pe, rfl, hpe, hfd⟩ := hqp
    have hrun : listenOn s answers ((key, some entry) :: entries) done.length k
        = if answers done.length then listenOn s answers entries (done.length + 1) (k.listen p.2)
          else some (false, k) := by
      rw [listenOn]
      simp only [Option.bind_eq_bind, Option.bind_some, hpe, hfd]
    rw [hrun]
    by_cases hans : answers done.length = true
    · have hlen : (done ++ [p]).length = done.length + 1 := List.length_append
      have happ : done ++ p :: ports = (done ++ [p]) ++ ports := by
        rw [List.append_assoc]
        rfl
      have hp : (done ++ p :: ports)[done.length]? = some p := by
        rw [List.getElem?_append_right (Nat.le_refl _), Nat.sub_self]
        rfl
      have hnext := hbound.listen hp
      rw [happ, ← hlen] at hnext
      obtain ⟨m, k', hrest, hle, hyes, hno, hbound'⟩ := ih (done ++ [p]) hnext
      rw [hlen] at hrest hyes hno hbound'
      rw [if_pos hans, hrest]
      refine ⟨m + 1, k', ?_, ?_, ?_, ?_, ?_⟩
      · rw [List.length_cons]
        congr 2
        exact decide_eq_decide.mpr (by omega)
      · rw [List.length_cons]
        omega
      · intro i hi
        cases i with
        | zero => exact hans
        | succ i =>
          have := hyes i (by omega)
          rwa [Nat.add_assoc, Nat.add_comm 1] at this
      · intro hlt
        rw [List.length_cons] at hlt
        have := hno (by omega)
        rwa [Nat.add_assoc, Nat.add_comm 1] at this
      · rw [happ]
        rwa [Nat.add_assoc, Nat.add_comm 1] at hbound'
    · rw [if_neg hans]
      exact ⟨0, k, rfl, Nat.zero_le _, fun i hi => absurd hi (Nat.not_lt_zero i),
        fun _ => Bool.eq_false_iff.mpr hans, hbound⟩

theorem ports_of_forall₂ {s : ServerState} {entries : List (IntKey × Option ℕ)}
    {ports : List (UInt16 × ℕ)} (h : List.Forall₂ (PortSocket s) entries ports) :
    ports.map Prod.fst = entries.map fun q => q.1.key.toUInt16 := by
  induction h with
  | nil => rfl
  | cons hqp _ ih => rw [List.map_cons, List.map_cons, ih, hqp.1]

/-- The server after a successful `fh_server_create`, and its sockets. -/
structure Started (s : ServerState) (k k₁ : Kernel) (entries : List (IntKey × Option ℕ))
    (ports : List (UInt16 × ℕ)) : Prop where
  contents : htableContents s.portTable = some entries
  sockets : List.Forall₂ (PortSocket s) entries ports
  bound : Bound k k₁ ports 0
  nodup : (ports.map Prod.fst).Nodup
  mem_iff : ∀ port, port ∈ ports.map Prod.fst ↔ (s.entryOf port).isSome

/-- The configuration is processed with a ready socket for each port. -/
theorem fhServerProcessConfigOn_started {env : ServerEnv} {config : FhConfig} {k k₁ : Kernel}
    {s₀ s : ServerState} (hs₀ : s₀.Fresh) (hfresh : SocketsFresh env.socket 0 k)
    (h : fhServerProcessConfigOn env config s₀ k = some ((true, s), k₁)) :
    ∃ entries ports, Started s k k₁ entries ports := by
  obtain ⟨⟨more, s₁⟩, hloops, h⟩ := Option.bind_eq_some_iff.mp h
  cases more with
  | false => cases h
  | true =>
    obtain ⟨entries, hentries, h⟩ := Option.bind_eq_some_iff.mp h
    rw [processVhosts_eq] at hloops
    obtain ⟨⟨m, hp⟩, -⟩ := hs₀.ports.processDeclarations hloops
    obtain ⟨l, hl, -, hdist, hmem⟩ := hp.contents
    obtain rfl : entries = l := Option.some.inj (hentries.symm.trans hl)
    obtain ⟨hdata, hkeys⟩ := nodup_of_contents hp hdist hmem
    obtain ⟨htable, -, -⟩ := createSockets_eq_some h
    obtain ⟨ports, hbound, hports, -, -, hlen⟩ := createSockets_bound hfresh hdata h
    rw [hlen rfl, List.take_length] at hports
    have hfst := ports_of_forall₂ hports
    refine ⟨entries, ports, htable ▸ hentries, hports, hbound, hfst ▸ hkeys, fun port => ?_⟩
    have hentry : s.entryOf port = s₁.entryOf port := by rw [ServerState.entryOf, htable]; rfl
    rw [hfst, hentry, Option.isSome_iff_exists, List.mem_map]
    constructor
    · rintro ⟨q, hq, rfl⟩
      obtain ⟨port, entry, rfl, he⟩ := (hmem q).mp hq
      exact ⟨entry, by rw [portKey_toUInt16]; exact he⟩
    · rintro ⟨entry, he⟩
      exact ⟨(portKey port, some entry), (hmem _).mpr ⟨port, entry, rfl, he⟩,
        portKey_toUInt16 port⟩

theorem fhServerCreateOn_started {env : ServerEnv} {config : FhConfig} {k k₁ : Kernel}
    {s : ServerState} {live : List Resource} (hfresh : SocketsFresh env.socket 0 k)
    (h : fhServerCreateOn env config k = some (⟨some s, live⟩, k₁)) :
    ∃ entries ports, Started s k k₁ entries ports := by
  rw [fhServerCreateOn] at h
  by_cases hserver : env.server = true
  · rw [if_pos hserver] at h
    obtain ⟨created, hcreate, h⟩ := Option.bind_eq_some_iff.mp h
    cases created with
    | none =>
      obtain ⟨live', -, h⟩ := Option.bind_eq_some_iff.mp h
      cases h
    | some t =>
      have hs₀ : ServerState.Fresh ⟨t, [], [], [.portTable, .server]⟩ := ⟨⟨_, hcreate⟩, rfl, rfl⟩
      obtain ⟨⟨⟨ok, s'⟩, k'⟩, hprocess, h⟩ := Option.bind_eq_some_iff.mp h
      cases ok with
      | false =>
        obtain ⟨_, -, h⟩ := Option.bind_eq_some_iff.mp h
        obtain ⟨_, -, h⟩ := Option.bind_eq_some_iff.mp h
        obtain ⟨_, -, h⟩ := Option.bind_eq_some_iff.mp h
        cases h
      | true =>
        obtain ⟨hr, rfl⟩ := Prod.mk.inj (Option.some.inj h)
        obtain ⟨hs, -⟩ := CreateResult.mk.inj hr
        obtain rfl := Option.some.inj hs
        exact fhServerProcessConfigOn_started hs₀ hfresh hprocess
  · rw [if_neg hserver] at h
    cases h

theorem Started.listen {s : ServerState} {k k₁ : Kernel} {entries : List (IntKey × Option ℕ)}
    {ports : List (UInt16 × ℕ)} (h : Started s k k₁ entries ports) (answers : ℕ → Bool) :
    ∃ m k₂, fhServerListen answers s k₁ = some (decide (m = ports.length), k₂) ∧
      m ≤ ports.length ∧ (∀ i < m, answers i = true) ∧
      (m < ports.length → answers m = false) ∧ Bound k k₂ ports m := by
  obtain ⟨m, k₂, hrun, hle, hyes, hno, hbound⟩ :=
    listenOn_eq [] h.sockets h.bound
  simp only [List.length_nil, Nat.zero_add] at hrun hyes hno hbound
  refine ⟨m, k₂, ?_, hle, hyes, hno, hbound⟩
  rw [fhServerListen, h.contents]
  exact hrun

/-! ### When every call succeeds -/

/-- `fh_server_create`, if every allocation and every call for the sockets succeeds. -/
theorem fhServerCreateOn_succeed {env : ServerEnv} {config : FhConfig}
    (hserver : env.server = true) (htable : env.portTable.Succeed) (hsucceed : env.Succeed)
    (hlimit : ∀ port, (config.hostnames port).length < uint32Max) (k : Kernel) :
    ∃ s k₁, fhServerCreateOn env config k = some (⟨some s, s.live⟩, k₁) ∧
      ∀ port, (s.entryOf port).isSome ↔ config.Uses port := by
  rcases htableCreate_cases IntKey ℕ env.portTable with ⟨hns, -⟩ | ⟨-, t, hcreate, -⟩
  · exact absurd htable hns
  have hs₀ : ServerState.Fresh ⟨t, [], [], [.portTable, .server]⟩ := ⟨⟨_, hcreate⟩, rfl, rfl⟩
  obtain ⟨s₁, m, hloops, hp, -, -, hports⟩ := processDeclarations_succeed hlimit
    (fun d hd => FhConfig.id_mem hd) (fun d hd => FhConfig.al_succeed hsucceed.1 hd)
    hs₀.ports (hs₀.hosts config)
  obtain ⟨l, hl, -, hdist, hmem⟩ := hp.contents
  obtain ⟨hdata, -⟩ := nodup_of_contents hp hdist hmem
  obtain ⟨s, k₁, hrun, -⟩ := createSockets_succeed (n := 0) hsucceed.2 (fun q hq => by
    obtain ⟨port, entry, rfl, he⟩ := (hmem q).mp hq
    exact ⟨entry, rfl, hp.lt_length he⟩) hdata k
  obtain ⟨htable', -, -⟩ := createSockets_eq_some hrun
  refine ⟨s, k₁, ?_, fun port => ?_⟩
  · have hloops : processVhosts env.id config.vhosts 0 ⟨t, [], [], [.portTable, .server]⟩
        = some (true, s₁) := by rw [processVhosts_eq]; exact hloops
    rw [fhServerCreateOn, if_pos hserver, hcreate]
    simp only [Option.bind_eq_bind, Option.bind_some, fhServerProcessConfigOn, hloops, if_true,
      hl, hrun]
  · have hentry : s.entryOf port = s₁.entryOf port := by rw [ServerState.entryOf, htable']; rfl
    rw [hentry, hports, hs₀.entryOf_eq, FhConfig.exists_declaration]
    exact ⟨fun h => h.resolve_left Bool.false_ne_true, .inr⟩

theorem ServerEnv.ok_fresh : SocketsFresh ServerEnv.ok.socket 0 noSockets := by
  rintro j - fd hfd
  obtain rfl : j + 3 = fd := Option.some.inj hfd
  refine ⟨rfl, fun i _ hij he => ?_⟩
  have he : i + 3 = j + 3 := Option.some.inj he
  omega

theorem length_hostnames_oneHost (port : UInt16) :
    (oneHost.hostnames port).length < uint32Max := by
  have hle : (oneHost.hostnames port).length ≤ oneHost.ids.length := by
    refine (List.dedup_sublist _).length_le.trans ?_
    rw [List.length_map]
    exact List.length_filter_le _ _
  exact hle.trans_lt (by decide)

/-! ### Starting the server -/

/-- After `fh_server_create` and `fh_server_listen` the kernel has one socket more for each
port of the port table and no other one, set up, not blocking and bound to its port.  The
sockets of the first `m` ports, in the order of the table, listen and the others do not:
`m` is the number of the first call of `listen` that fails, and the server listens if none
does. -/
theorem server_startup {env : ServerEnv} {config : FhConfig} {k k₁ : Kernel} {s : ServerState}
    {live : List Resource} (hfresh : SocketsFresh env.socket 0 k)
    (hcreate : fhServerCreateOn env config k = some (⟨some s, live⟩, k₁))
    (answers : ℕ → Bool) :
    ∃ entries ports m k₂, Started s k k₁ entries ports ∧
      fhServerListen answers s k₁ = some (decide (m = ports.length), k₂) ∧
      m ≤ ports.length ∧ (∀ i < m, answers i = true) ∧
      (m < ports.length → answers m = false) ∧ Bound k k₂ ports m := by
  obtain ⟨entries, ports, hstarted⟩ := fhServerCreateOn_started hfresh hcreate
  obtain ⟨m, k₂, hrun, hle, hyes, hno, hbound⟩ := hstarted.listen answers
  exact ⟨entries, ports, m, k₂, hstarted, hrun, hle, hyes, hno, hbound⟩

/-- The call of `listen` for the only port fails. -/
theorem server_startup_oneHost : ∃ s live k₁,
    fhServerCreateOn ServerEnv.ok oneHost noSockets = some (⟨some s, live⟩, k₁) ∧
    ∃ entries ports m k₂, Started s noSockets k₁ entries ports ∧
      fhServerListen (fun _ => false) s k₁ = some (decide (m = ports.length), k₂) ∧
      m ≤ ports.length ∧ (∀ i < m, false = true) ∧ (m < ports.length → false = false) ∧
      Bound noSockets k₂ ports m := by
  obtain ⟨s, k₁, hcreate, -⟩ := fhServerCreateOn_succeed (show ServerEnv.ok.server = true from rfl)
    ⟨rfl, rfl, rfl⟩ ServerEnv.ok_succeed length_hostnames_oneHost noSockets
  exact ⟨s, s.live, k₁, hcreate, server_startup ServerEnv.ok_fresh hcreate fun _ => false⟩

/-- If every call succeeds the server starts, and exactly the ports of the configuration
have a socket each that listens on it. -/
theorem server_startup_ports {env : ServerEnv} {config : FhConfig} {k : Kernel}
    (hserver : env.server = true) (htable : env.portTable.Succeed) (hsucceed : env.Succeed)
    (hfresh : SocketsFresh env.socket 0 k)
    (hlimit : ∀ port, (config.hostnames port).length < uint32Max) {answers : ℕ → Bool}
    (hanswers : ∀ n, answers n = true) :
    ∃ s live k₁ k₂ ports, fhServerCreateOn env config k = some (⟨some s, live⟩, k₁) ∧
      fhServerListen answers s k₁ = some (true, k₂) ∧ Bound k k₂ ports ports.length ∧
      (ports.map Prod.fst).Nodup ∧ ∀ port, port ∈ ports.map Prod.fst ↔ config.Uses port := by
  obtain ⟨s, k₁, hcreate, huses⟩ :=
    fhServerCreateOn_succeed hserver htable hsucceed hlimit k
  obtain ⟨entries, ports, hstarted⟩ := fhServerCreateOn_started hfresh hcreate
  obtain ⟨m, k₂, hrun, hle, -, hno, hbound⟩ := hstarted.listen answers
  -- No call of `listen` fails.
  obtain rfl : m = ports.length := by
    rcases Nat.lt_or_eq_of_le hle with hlt | heq
    · have hfail := hno hlt
      rw [hanswers] at hfail
      cases hfail
    · exact heq
  refine ⟨s, s.live, k₁, k₂, ports, hcreate, ?_, hbound, hstarted.nodup, fun port => ?_⟩
  · simpa using hrun
  · rw [hstarted.mem_iff, huses]

theorem server_startup_ports_oneHost : ∃ s live k₁ k₂ ports,
    fhServerCreateOn ServerEnv.ok oneHost noSockets = some (⟨some s, live⟩, k₁) ∧
    fhServerListen (fun _ => true) s k₁ = some (true, k₂) ∧
    Bound noSockets k₂ ports ports.length ∧ (ports.map Prod.fst).Nodup ∧
    ∀ port, port ∈ ports.map Prod.fst ↔ oneHost.Uses port :=
  server_startup_ports rfl ⟨rfl, rfl, rfl⟩ ServerEnv.ok_succeed ServerEnv.ok_fresh
    length_hostnames_oneHost fun _ => rfl

end Freehttpd
