/-
The sockets of the server, created behind the loops over the configuration.

* `fhServerCreateSocket_cases` — a socket that cannot be set up is closed again;
* `createSockets_eq_some` — whatever the kernel answers, the loop leaves the tables as
  they are, and what it opens stays open;
* `createSockets_succeed` — if every socket can be created, every port table entry that
  is met gets one;
* `fhServerCreateOn_fst` — the server does not depend on the sockets of the process.
-/
import Freehttpd.ServerHosts

namespace Freehttpd

/-! ### One socket -/

/-- All calls succeed. -/
def SocketCalls.Succeed (calls : SocketCalls) : Prop :=
  calls.socket.isSome ∧ calls.reuseaddr = true ∧ calls.reuseport = true ∧
    calls.rcvtimeo = true ∧ calls.sndtimeo = true ∧ (calls.getfl = true ∧ calls.setfl = true) ∧
    calls.bind = true

instance (calls : SocketCalls) : Decidable calls.Succeed := inferInstanceAs (Decidable (_ ∧ _))

/-- A socket that is set up for a port. -/
def Socket.ready (port : UInt16) : Socket :=
  { reuseaddr := 1, reuseport := 1, rcvtimeo := 10, sndtimeo := 10, flags := 2 ||| oNonblock,
    bound := some { sinFamily := afInet, sinPort := htons port, sAddr := inaddrAny },
    listening := false }

/-- A socket that is set up does not block. -/
theorem Socket.ready_nonblocking (port : UInt16) :
    (Socket.ready port).flags &&& oNonblock = oNonblock := by
  show (2 ||| oNonblock) &&& oNonblock = oNonblock
  decide

theorem Kernel.change_opened (k : Kernel) (fd : ℕ) (sock : Socket) (f : Socket → Socket) :
    Kernel.change (Function.update k fd (some sock)) fd f
      = Function.update k fd (some (f sock)) := by
  rw [Kernel.change, Function.update_self, Function.update_idem]
  rfl

theorem createSocketErr_opened (k : Kernel) (fd : ℕ) (sock : Socket) (live : List Resource) :
    createSocketErr fd (.socket fd :: live) (Function.update k fd (some sock))
      = some ((none, live), k.close fd) := by
  rw [createSocketErr, giveUp, if_pos List.mem_cons_self, List.erase_cons_head, Kernel.close,
    Function.update_idem]
  rfl

/-- If a call fails the socket is closed again, else there is one socket more, and it is
ready. -/
theorem fhServerCreateSocket_cases (calls : SocketCalls) (port : UInt16) (live : List Resource)
    (k : Kernel) :
    (¬ calls.Succeed ∧ fhServerCreateSocket calls port live k
        = some ((none, live), calls.socket.elim k k.close)) ∨
    (calls.Succeed ∧ ∃ fd, calls.socket = some fd ∧ fhServerCreateSocket calls port live k
        = some ((some fd, .socket fd :: live),
            Function.update k fd (some (Socket.ready port)))) := by
  obtain ⟨socket, reuseaddr, reuseport, rcvtimeo, sndtimeo, getfl, setfl, bind⟩ := calls
  cases socket with
  | none => exact .inl ⟨fun h => Bool.noConfusion h.1, rfl⟩
  | some fd =>
    -- The calls in their order: at the first one that fails the socket is closed.
    cases reuseaddr with
    | false => exact .inl ⟨by simp [SocketCalls.Succeed],
        by simp [fhServerCreateSocket, Kernel.opened, createSocketErr_opened]⟩
    | true =>
    cases reuseport with
    | false => exact .inl ⟨by simp [SocketCalls.Succeed],
        by simp [fhServerCreateSocket, Kernel.opened, Kernel.change_opened,
          createSocketErr_opened]⟩
    | true =>
    cases rcvtimeo with
    | false => exact .inl ⟨by simp [SocketCalls.Succeed],
        by simp [fhServerCreateSocket, Kernel.opened, Kernel.change_opened,
          createSocketErr_opened]⟩
    | true =>
    cases sndtimeo with
    | false => exact .inl ⟨by simp [SocketCalls.Succeed],
        by simp [fhServerCreateSocket, Kernel.opened, Kernel.change_opened,
          createSocketErr_opened]⟩
    | true =>
    cases getfl with
    | false => exact .inl ⟨by simp [SocketCalls.Succeed],
        by simp [fhServerCreateSocket, utilFdSetNonblocking, Kernel.opened,
          Kernel.change_opened, createSocketErr_opened]⟩
    | true =>
    cases setfl with
    | false => exact .inl ⟨by simp [SocketCalls.Succeed],
        by simp [fhServerCreateSocket, utilFdSetNonblocking, Kernel.opened,
          Kernel.change_opened, createSocketErr_opened]⟩
    | true =>
    cases bind with
    | false => exact .inl ⟨by simp [SocketCalls.Succeed],
        by simp [fhServerCreateSocket, utilFdSetNonblocking, Kernel.opened,
          Kernel.change_opened, createSocketErr_opened]⟩
    | true =>
    refine .inr ⟨by simp [SocketCalls.Succeed], fd, rfl, ?_⟩
    simp [fhServerCreateSocket, utilFdSetNonblocking, Kernel.opened, Kernel.change_opened,
      Socket.ready, Socket.new]

/-- A call of `fh_server_create_socket` that succeeds, as the server sees it. -/
theorem fhServerCreateSocket_succeed {calls : SocketCalls} (h : calls.Succeed) (port : UInt16)
    (live : List Resource) (k : Kernel) : ∃ fd, calls.socket = some fd ∧
      fhServerCreateSocket calls port live k = some ((some fd, .socket fd :: live),
        Function.update k fd (some (Socket.ready port))) := by
  rcases fhServerCreateSocket_cases calls port live k with ⟨hns, -⟩ | ⟨-, hone⟩
  · exact absurd h hns
  · exact hone

/-- A call of it that fails. -/
theorem fhServerCreateSocket_fail {calls : SocketCalls} (h : ¬ calls.Succeed) (port : UInt16)
    (live : List Resource) (k : Kernel) : fhServerCreateSocket calls port live k
      = some ((none, live), calls.socket.elim k k.close) := by
  rcases fhServerCreateSocket_cases calls port live k with ⟨-, hone⟩ | ⟨hs, -⟩
  · exact hone
  · exact absurd hs h

/-! ### The loop -/

/-- The tables of hosts by port table entry. -/
def ServerState.hostTables (s : ServerState) : List (Htable StrKey ℕ) :=
  s.portEntries.map FhPortTableEntry.hostConfigTable

/-- Giving a port table entry a socket does not change the tables. -/
theorem hostTables_set {s : ServerState} {entry : ℕ} {pe : FhPortTableEntry}
    (hpe : s.portEntries[entry]? = some pe) (sockfd : ℕ) :
    (s.portEntries.set entry { pe with sockfd := sockfd }).map FhPortTableEntry.hostConfigTable
      = s.hostTables := by
  obtain ⟨hlt, rfl⟩ := List.getElem?_eq_some_iff.mp hpe
  have hlt' : entry < (s.portEntries.map FhPortTableEntry.hostConfigTable).length := by
    rwa [List.length_map]
  have hget : (s.portEntries.map FhPortTableEntry.hostConfigTable)[entry]
      = s.portEntries[entry].hostConfigTable := List.getElem_map _
  rw [ServerState.hostTables, List.map_set]
  show List.set _ entry s.portEntries[entry].hostConfigTable = _
  rw [← hget, List.set_getElem_self]

theorem createSockets_eq_some {calls : ℕ → SocketCalls} {entries : List (IntKey × Option ℕ)}
    {n : ℕ} {s s' : ServerState} {k k' : Kernel} {more : Bool}
    (h : createSockets calls entries n s k = some ((more, s'), k')) :
    s'.portTable = s.portTable ∧ s'.hostTables = s.hostTables ∧
      ∃ fds : List ℕ, s'.live = fds.map Resource.socket ++ s.live ∧
        (more = true → fds.length = entries.length) := by
  induction entries generalizing n s k with
  | nil =>
    obtain ⟨hs, rfl⟩ := Prod.mk.inj (Option.some.inj h)
    obtain ⟨rfl, rfl⟩ := Prod.mk.inj hs
    exact ⟨rfl, rfl, [], rfl, fun _ => rfl⟩
  | cons q entries ih =>
    obtain ⟨key, data⟩ := q
    rw [createSockets] at h
    rcases fhServerCreateSocket_cases (calls n) key.key.toUInt16 s.live k with
      ⟨-, hcreate⟩ | ⟨-, sockfd, -, hcreate⟩
    · simp only [hcreate, Option.bind_eq_bind, Option.bind_some] at h
      obtain ⟨hs, -⟩ := Prod.mk.inj (Option.some.inj h)
      obtain ⟨rfl, rfl⟩ := Prod.mk.inj hs
      exact ⟨rfl, rfl, [], rfl, fun hf => Bool.noConfusion hf⟩
    · simp only [hcreate, Option.bind_eq_bind, Option.bind_some] at h
      obtain ⟨entry, -, h⟩ := Option.bind_eq_some_iff.mp h
      obtain ⟨pe, hpe, h⟩ := Option.bind_eq_some_iff.mp h
      obtain ⟨htable, hhosts, fds, hlive, hlen⟩ := ih h
      refine ⟨htable, hhosts.trans (hostTables_set hpe sockfd), fds ++ [sockfd], ?_, fun hm => ?_⟩
      · rw [hlive, List.map_append, List.append_assoc]
        rfl
      · rw [List.length_append, hlen hm]
        rfl

/-- If every socket can be created, there is one for each entry that is met, and it is
stored there. -/
theorem createSockets_succeed {calls : ℕ → SocketCalls} (hcalls : ∀ n, (calls n).Succeed)
    {entries : List (IntKey × Option ℕ)} {n : ℕ} {s : ServerState}
    (hentries : ∀ q ∈ entries, ∃ entry, q.2 = some entry ∧ entry < s.portEntries.length)
    (hnodup : (entries.map Prod.snd).Nodup) (k : Kernel) :
    ∃ s' k', createSockets calls entries n s k = some ((true, s'), k') ∧
      s'.sockets.map Prod.snd = s.sockets.map Prod.snd ++ entries.map (fun q => q.1.key.toUInt16) ∧
      (∀ x ∈ s.sockets, x ∈ s'.sockets) ∧
      (∀ entry, some entry ∉ entries.map Prod.snd →
        s'.portEntries[entry]? = s.portEntries[entry]?) ∧
      ∀ q ∈ entries, ∀ entry, q.2 = some entry → ∃ pe, s'.portEntries[entry]? = some pe ∧
        (pe.sockfd, q.1.key.toUInt16) ∈ s'.sockets := by
  induction entries generalizing n s k with
  | nil =>
    refine ⟨s, k, rfl, ?_, fun x hx => hx, fun _ _ => rfl, ?_⟩
    · rw [List.map_nil, List.append_nil]
    · intro q hq
      cases hq
  | cons q entries ih =>
    obtain ⟨key, data⟩ := q
    obtain ⟨entry, hdata, hlt⟩ := hentries (key, data) List.mem_cons_self
    obtain rfl : data = some entry := hdata
    rw [List.map_cons, List.nodup_cons] at hnodup
    obtain ⟨sockfd, -, hcreate⟩ :=
      fhServerCreateSocket_succeed (hcalls n) key.key.toUInt16 s.live k
    have hpe : s.portEntries[entry]? = some s.portEntries[entry] := List.getElem?_eq_getElem hlt
    obtain ⟨s', k', hrun, hports, hkept, hother, hstored⟩ := @ih (n + 1)
      { s with
        portEntries := s.portEntries.set entry { s.portEntries[entry] with sockfd := sockfd }
        sockets := s.sockets ++ [(sockfd, key.key.toUInt16)]
        live := .socket sockfd :: s.live }
      (fun q hq => by
        rw [List.length_set]
        exact hentries q (List.mem_cons_of_mem _ hq)) hnodup.2
      (Function.update k sockfd (some (Socket.ready key.key.toUInt16)))
    refine ⟨s', k', ?_, ?_, fun x hx => hkept x (List.mem_append_left _ hx), fun e he => ?_, ?_⟩
    · rw [createSockets]
      simp only [hcreate, hpe, Option.bind_eq_bind, Option.bind_some]
      exact hrun
    · rw [hports, List.map_append, List.append_assoc]
      rfl
    · rw [List.map_cons, List.mem_cons, not_or] at he
      rw [hother e he.2, List.getElem?_set_ne fun heq => he.1 (congrArg some heq.symm)]
    · intro q hq e he
      rcases List.mem_cons.mp hq with rfl | hq
      · -- The entry is not met again.
        obtain rfl : entry = e := Option.some.inj he
        refine ⟨{ s.portEntries[entry] with sockfd := sockfd }, ?_, ?_⟩
        · rw [hother entry hnodup.1, List.getElem?_set_self hlt]
        · exact hkept _ (List.mem_append_right _ (List.mem_singleton_self _))
      · exact hstored q hq e he

/-! ### The server's part -/

theorem createSockets_fst {calls : ℕ → SocketCalls} {entries : List (IntKey × Option ℕ)} {n : ℕ}
    {s : ServerState} (k k' : Kernel) :
    (createSockets calls entries n s k).map Prod.fst
      = (createSockets calls entries n s k').map Prod.fst := by
  induction entries generalizing n s k k' with
  | nil => rfl
  | cons q entries ih =>
    obtain ⟨key, data⟩ := q
    rw [createSockets, createSockets]
    by_cases hs : (calls n).Succeed
    · obtain ⟨fd, hfd, hone⟩ := fhServerCreateSocket_succeed hs key.key.toUInt16 s.live k
      obtain ⟨fd', hfd', hone'⟩ := fhServerCreateSocket_succeed hs key.key.toUInt16 s.live k'
      obtain rfl := Option.some.inj (hfd.symm.trans hfd')
      simp only [hone, hone', Option.bind_eq_bind, Option.bind_some]
      cases data with
      | none => rfl
      | some entry =>
        simp only [Option.bind_some]
        cases s.portEntries[entry]? with
        | none => rfl
        | some pe => exact ih _ _
    · rw [fhServerCreateSocket_fail hs, fhServerCreateSocket_fail hs]
      rfl

theorem fhServerProcessConfigOn_fst (env : ServerEnv) (config : FhConfig) (s : ServerState)
    (k : Kernel) : (fhServerProcessConfigOn env config s k).map Prod.fst
      = fhServerProcessConfig env config s := by
  rw [fhServerProcessConfig, fhServerProcessConfigOn, fhServerProcessConfigOn]
  simp only [Option.bind_eq_bind]
  cases processVhosts env.id config.vhosts 0 s with
  | none => rfl
  | some r =>
    obtain ⟨more, s'⟩ := r
    cases more with
    | false => rfl
    | true =>
      simp only [Option.bind_some, if_true]
      cases htableContents s'.portTable with
      | none => rfl
      | some entries => exact createSockets_fst k noSockets

/-- The server that `fh_server_create` hands to `fh_server_process_config`. -/
theorem fhServerCreateOn_eq {env : ServerEnv} {config : FhConfig} (hserver : env.server = true)
    {t : Htable IntKey ℕ} (hcreate : htableCreate env.portTable 16 = some (some t)) (k : Kernel) :
    (fhServerCreateOn env config k).map Prod.fst = (fhServerProcessConfig env config
      { portTable := t, portEntries := [], sockets := [], live := [.portTable, .server] }).bind
      fun r => if r.1 then some ⟨some r.2, r.2.live⟩
        else (htableFree r.2.portTable (r.2.portTable.count + 1)).bind fun _ =>
          (giveUp .portTable r.2.live).bind fun live =>
            (giveUp .server live).bind fun live => some ⟨none, live⟩ := by
  rw [fhServerCreateOn, if_pos hserver, ← fhServerProcessConfigOn_fst _ _ _ k]
  simp only [hcreate, Option.bind_eq_bind, Option.bind_some]
  cases fhServerProcessConfigOn env config ⟨t, [], [], [.portTable, .server]⟩ k with
  | none => rfl
  | some r =>
    obtain ⟨⟨ok, s⟩, k'⟩ := r
    cases ok with
    | true => rfl
    | false =>
      simp only [Option.bind_some, Option.map_some, if_neg Bool.false_ne_true,
        Option.map_bind, Function.comp_def]

/-- The server that `fh_server_create` returns does not depend on the sockets of the
process. -/
theorem fhServerCreateOn_fst (env : ServerEnv) (config : FhConfig) (k : Kernel) :
    (fhServerCreateOn env config k).map Prod.fst = fhServerCreate env config := by
  rw [fhServerCreate]
  by_cases hserver : env.server = true
  · rcases htableCreate_cases IntKey ℕ env.portTable with ⟨-, hcreate⟩ | ⟨-, t, hcreate, -⟩
    · rw [fhServerCreateOn, fhServerCreateOn, if_pos hserver, if_pos hserver]
      simp only [hcreate]
      rfl
    · rw [fhServerCreateOn_eq hserver hcreate, fhServerCreateOn_eq hserver hcreate]
  · rw [fhServerCreateOn, fhServerCreateOn, if_neg hserver, if_neg hserver]
    rfl

end Freehttpd
