/-
What `fh_server_create` and `fh_server_free` leave behind.

The failure path of `fh_server_create` frees the port table with `int_htable_free`, which
does not look at the port table entries, and nothing closes the sockets.

* `fhServerFree_keeps` — `fh_server_free` keeps the sockets, and every port table entry
  that is not in the port table;
* `fhServerProcessConfig_keeps` — behind the first port table entry there is always
  something that the server does not give up;
* `server_create_balanced_iff` — so nothing is left only if there is no first port table
  entry.
-/
import Freehttpd.ServerLoading

namespace Freehttpd

open Runs

/-- Nothing is left of a server that was not created, or was created and freed. -/
def Balanced (env : ServerEnv) (config : FhConfig) : Prop :=
  ∃ r, fhServerCreate env config = some r ∧ (r.server = none → r.live = []) ∧
    ∀ s, r.server = some s → fhServerFree s = some []

/-! ### Freeing -/

theorem giveUp_keeps {r x : Resource} {live live' : List Resource}
    (h : giveUp r live = some live') (hx : x ∈ live) (hne : x ≠ r) : x ∈ live' := by
  rw [giveUp] at h
  split at h
  · rw [← Option.some.inj h]
    exact (List.mem_erase_of_ne hne).mpr hx
  · cases h

theorem cleanup_keeps {portEntries : List FhPortTableEntry} {calls : List (Option ℕ)}
    {live live' : List Resource} {x : Resource}
    (h : calls.foldlM (fhServerPortTableEntryCleanup portEntries) live = some live')
    (hx : x ∈ live)
    (hne : ∀ entry, some entry ∈ calls → x ≠ .hostTable entry ∧ x ≠ .portEntry entry) :
    x ∈ live' := by
  induction calls generalizing live with
  | nil => exact Option.some.inj h ▸ hx
  | cons ptr calls ih =>
    rw [List.foldlM_cons, Option.bind_eq_bind, Option.bind_eq_some_iff] at h
    obtain ⟨live₁, hone, h⟩ := h
    refine ih h ?_ fun entry he => hne entry (List.mem_cons_of_mem _ he)
    rw [fhServerPortTableEntryCleanup, Option.bind_eq_bind, Option.bind_eq_some_iff] at hone
    obtain ⟨entry, rfl, hone⟩ := hone
    obtain ⟨pe, -, hone⟩ := Option.bind_eq_some_iff.mp hone
    obtain ⟨r, -, hone⟩ := Option.bind_eq_some_iff.mp hone
    obtain ⟨live₂, htable, hentry⟩ := Option.bind_eq_some_iff.mp hone
    obtain ⟨hnetable, hneentry⟩ := hne entry List.mem_cons_self
    exact giveUp_keeps hentry (giveUp_keeps htable hx hnetable) hneentry

theorem fhServerFree_keeps {s : ServerState} {m : List (IntKey × Option ℕ)} (hp : PortsInv s m)
    {live : List Resource} {x : Resource} (h : fhServerFree s = some live) (hx : x ∈ s.live)
    (hserver : x ≠ .server) (htable : x ≠ .portTable)
    (hne : ∀ port entry, s.entryOf port = some entry →
      x ≠ .hostTable entry ∧ x ≠ .portEntry entry) : x ∈ live := by
  obtain ⟨l, -, hfree, -, hl⟩ := hp.contents
  rw [fhServerFree, hfree, Option.bind_eq_bind, Option.bind_some, Option.bind_eq_bind,
    Option.bind_eq_some_iff] at h
  obtain ⟨live₁, hcleanup, h⟩ := h
  obtain ⟨live₂, hporttable, h⟩ := Option.bind_eq_some_iff.mp h
  refine giveUp_keeps h (giveUp_keeps hporttable (cleanup_keeps hcleanup hx ?_) htable) hserver
  intro entry he
  obtain ⟨q, hq, hdata⟩ := List.mem_map.mp (show some entry ∈ l.map Prod.snd from he)
  obtain ⟨port, entry', rfl, hentry⟩ := (hl q).mp hq
  obtain rfl : entry' = entry := Option.some.inj hdata
  exact hne port entry' hentry

/-! ### Creating -/

/-- Once a port table entry was created, a server that is reported as created has a socket,
or no port table entry in its table. -/
theorem fhServerProcessConfig_keeps {env : ServerEnv} {config : FhConfig} {s₀ s : ServerState}
    {ok : Bool} (hfresh : s₀.Fresh) {d : Declaration}
    (hd : (config.declarations env.id).head? = some d) (hcreates : d.al.Creates)
    (hrun : fhServerProcessConfig env config s₀ = some (ok, s)) :
    (∃ m, PortsInv s m) ∧ .portEntry 0 ∈ s.live ∧
      (ok = true → (∃ fd, .socket fd ∈ s.live) ∨ ∀ port, s.entryOf port = none) := by
  obtain ⟨ds, hds⟩ : ∃ ds, config.declarations env.id = d :: ds := by
    cases hl : config.declarations env.id with
    | nil =>
      rw [hl] at hd
      cases hd
    | cons d' ds =>
      rw [hl] at hd
      exact ⟨ds, by rw [Option.some.inj hd]⟩
  rw [fhServerProcessConfig_eq, hds, Option.bind_eq_some_iff] at hrun
  obtain ⟨⟨more, s₁⟩, hloops, hrun⟩ := hrun
  obtain ⟨⟨more₁, s₂⟩, hone, hrest⟩ := Option.bind_eq_some_iff.mp hloops
  rcases hfresh.ports.processId hone with ⟨-, -, -, hns⟩ | ⟨rfl, -, ⟨m₂, hp₂⟩, hlive⟩
  · exact absurd hcreates hns
  have hfirst : .portEntry 0 ∈ s₂.live := by
    rcases hlive with ⟨hentry, -⟩ | ⟨-, hlive⟩
    · exact absurd (hfresh.entryOf_eq _) hentry
    · rw [hlive, hfresh.portEntries]
      exact List.mem_cons_of_mem _ List.mem_cons_self
  obtain ⟨⟨m₁, hp₁⟩, hkept⟩ := hp₂.processDeclarations hrest
  cases more with
  | false =>
    obtain ⟨rfl, rfl⟩ := Prod.mk.inj (Option.some.inj hrun)
    exact ⟨⟨m₁, hp₁⟩, hkept _ hfirst, fun hf => Bool.noConfusion hf⟩
  | true =>
    obtain ⟨entries, hentries, hsockets⟩ := Option.bind_eq_some_iff.mp hrun
    obtain ⟨⟨r, k⟩, hsockets, rfl⟩ := Option.map_eq_some_iff.mp hsockets
    obtain ⟨htable, hhosts, fds, hlive, hlen⟩ := createSockets_eq_some hsockets
    have hlength : s₁.portEntries.length = s.portEntries.length := by
      have h := congrArg List.length hhosts
      rw [ServerState.hostTables, ServerState.hostTables, List.length_map, List.length_map] at h
      exact h.symm
    refine ⟨⟨m₁, hp₁.congr htable hlength.le⟩, ?_, fun hok => ?_⟩
    · rw [hlive]
      exact List.mem_append_right _ (hkept _ hfirst)
    · obtain ⟨l, hl, -, -, hmem⟩ := hp₁.contents
      obtain rfl : entries = l := Option.some.inj (hentries.symm.trans hl)
      cases fds with
      | nil =>
        -- No socket: nothing was met in the port table.
        have hnil : entries = [] := List.eq_nil_of_length_eq_zero (hlen hok).symm
        refine .inr fun port => Option.eq_none_iff_forall_ne_some.mpr fun entry he => ?_
        have he' : s₁.entryOf port = some entry := by
          rw [ServerState.entryOf, ← htable]
          exact he
        have hm := (hmem _).mpr ⟨port, entry, rfl, he'⟩
        rw [hnil] at hm
        cases hm
      | cons fd fds =>
        refine .inl ⟨fd, ?_⟩
        rw [hlive]
        exact List.mem_cons_self

/-! ### The balance -/

/-- Behind the first port table entry something is always left. -/
theorem not_balanced {env : ServerEnv} {config : FhConfig} (hserver : env.server = true)
    {t : Htable IntKey ℕ} (hcreate : htableCreate env.portTable 16 = some (some t))
    {d : Declaration} (hd : (config.declarations env.id).head? = some d)
    (hcreates : d.al.Creates) : ¬ Balanced env config := by
  have hfresh : ServerState.Fresh ⟨t, [], [], [.portTable, .server]⟩ := ⟨⟨_, hcreate⟩, rfl, rfl⟩
  rintro ⟨r, hr, hnull, hfree⟩
  rw [fhServerCreate, fhServerCreateOn_eq hserver hcreate, Option.bind_eq_some_iff] at hr
  obtain ⟨⟨ok, s⟩, hrun, hr⟩ := hr
  obtain ⟨⟨m, hp⟩, hfirst, hleft⟩ := fhServerProcessConfig_keeps hfresh hd hcreates hrun
  cases ok with
  | false =>
    -- The first port table entry is left.
    obtain ⟨_, -, hr⟩ := Option.bind_eq_some_iff.mp hr
    obtain ⟨live₁, htable, hr⟩ := Option.bind_eq_some_iff.mp hr
    obtain ⟨live₂, hgone, hr⟩ := Option.bind_eq_some_iff.mp hr
    rw [← Option.some.inj hr] at hnull
    have hmem := giveUp_keeps hgone (giveUp_keeps htable hfirst (by decide)) (by decide)
    rw [show live₂ = [] from hnull rfl] at hmem
    cases hmem
  | true =>
    rw [← Option.some.inj hr] at hfree
    have hfree := hfree s rfl
    rcases hleft rfl with ⟨fd, hfd⟩ | hempty
    · -- A socket is left.
      have hmem := fhServerFree_keeps hp hfree hfd (fun h => Resource.noConfusion h)
        (fun h => Resource.noConfusion h) fun _ _ _ =>
          ⟨fun h => Resource.noConfusion h, fun h => Resource.noConfusion h⟩
      cases hmem
    · -- No port table entry is in the port table, so the first one is left.
      have hmem := fhServerFree_keeps hp hfree hfirst (by decide) (by decide)
        fun port entry he => by
          rw [hempty port] at he
          cases he
      cases hmem

/-- Without a port table entry everything is given up. -/
theorem balanced_of_none {env : ServerEnv} {config : FhConfig} (hserver : env.server = true)
    {t : Htable IntKey ℕ} (hcreate : htableCreate env.portTable 16 = some (some t))
    (hnone : ∀ d ∈ (config.declarations env.id).head?, ¬ d.al.Creates) : Balanced env config := by
  have hfresh : ServerState.Fresh ⟨t, [], [], [.portTable, .server]⟩ := ⟨⟨_, hcreate⟩, rfl, rfl⟩
  have hp := hfresh.ports
  obtain ⟨l, hl, hfree, -, hmem⟩ := hp.contents
  obtain rfl : l = [] := by
    refine List.eq_nil_iff_forall_not_mem.mpr fun q hq => ?_
    obtain ⟨port, entry, -, he⟩ := (hmem q).mp hq
    rw [hfresh.entryOf_eq] at he
    cases he
  dsimp only at hl hfree
  rw [Balanced, fhServerCreate, fhServerCreateOn_eq hserver hcreate, fhServerProcessConfig_eq]
  cases hds : config.declarations env.id with
  | nil =>
    -- There are no ids, so no sockets are created.
    refine ⟨⟨some ⟨t, [], [], [.portTable, .server]⟩, [.portTable, .server]⟩, ?_, ?_, ?_⟩
    · simp only [processDeclarations, Option.bind_some, if_true, hl, createSockets,
        Option.map_some]
    · rintro ⟨⟩
    · rintro s ⟨rfl⟩
      rw [fhServerFree, hfree]
      rfl
  | cons d ds =>
    have hns : ¬ d.al.Creates := hnone d (by rw [hds]; rfl)
    have hstop : processId d.al d.vhost d.id ⟨t, [], [], [.portTable, .server]⟩
        = some (false, ⟨t, [], [], [.portTable, .server]⟩) :=
      hp.processId_stop (hfresh.entryOf_eq d.id.port) hns
    refine ⟨⟨none, []⟩, ?_, fun _ => rfl, ?_⟩
    · rw [processDeclarations, hstop]
      simp only [Option.bind_eq_bind, Option.bind_some, Bool.false_eq_true, if_false, htableFree,
        hfree]
      rfl
    · rintro s ⟨⟩

/-- Nothing is left, whatever the allocations and the kernel answer, if and only if the
server or its port table cannot be allocated, or the first id of the configuration, if
there is one, gets no port table entry. -/
theorem server_create_balanced_iff (env : ServerEnv) (config : FhConfig) :
    Balanced env config ↔ env.server = false ∨ ¬ env.portTable.Succeed ∨
      ∀ d ∈ (config.declarations env.id).head?, ¬ d.al.Creates := by
  by_cases hserver : env.server = true
  · rcases htableCreate_cases IntKey ℕ env.portTable with ⟨hns, hcreate⟩ | ⟨hs, t, hcreate, -⟩
    · refine iff_of_true ⟨⟨none, []⟩, ?_, fun _ => rfl, ?_⟩ (.inr (.inl hns))
      · rw [fhServerCreate, fhServerCreateOn, if_pos hserver]
        simp only [hcreate, Option.bind_eq_bind, Option.bind_some]
        rfl
      · rintro s ⟨⟩
    · constructor
      · intro hbal
        refine .inr (.inr fun d hd hcreates => ?_)
        exact not_balanced hserver hcreate hd hcreates hbal
      · rintro (hf | hns | hnone)
        · rw [hserver] at hf
          cases hf
        · exact absurd hs hns
        · exact balanced_of_none hserver hcreate hnone
  · have hf : env.server = false := Bool.not_eq_true _ ▸ hserver
    refine iff_of_true ⟨⟨none, []⟩, ?_, fun _ => rfl, ?_⟩ (.inl hf)
    · rw [fhServerCreate, fhServerCreateOn, if_neg hserver]
      rfl
    · rintro s ⟨⟩

/-- The socket of the only id cannot be created. -/
def noSocket : ServerEnv :=
  { ServerEnv.ok with socket := fun _ => ⟨none, true, true, true, true, true, true, true⟩ }

/-- One id: if every call succeeds, its socket is still open after `fh_server_free`; if its
socket cannot be created, its port table entry and its table of hosts are left. -/
theorem server_create_leaks :
    ¬ Balanced ServerEnv.ok oneHost ∧ ¬ Balanced noSocket oneHost := by
  have hok : (fhServerCreate ServerEnv.ok oneHost).bind (fun r => r.server.bind fhServerFree)
      = some [.socket 3] := by
    decide +kernel
  have hno : (fhServerCreate noSocket oneHost).map (fun r => (r.server.isNone, r.live))
      = some (true, [.hostTable 0, .portEntry 0]) := by
    decide +kernel
  constructor
  · rintro ⟨r, hr, -, hfree⟩
    rw [hr, Option.bind_some, Option.bind_eq_some_iff] at hok
    obtain ⟨s, hs, hleft⟩ := hok
    rw [hfree s hs] at hleft
    cases hleft
  · rintro ⟨r, hr, hnull, -⟩
    rw [hr, Option.map_some, Option.some_inj] at hno
    obtain ⟨hnone, hlive⟩ := Prod.mk.inj hno
    rw [hnull (Option.isNone_iff_eq_none.mp hnone)] at hlive
    cases hlive

end Freehttpd
