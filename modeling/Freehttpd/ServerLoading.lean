/-
Which configurations `fh_server_process_config` reports as loaded.

The return values of `int_htable_set` and `str_htable_set` are not looked at, so
`return true` does not mean that the configuration is in the tables.

* `declareStep_maps` — which hostnames an id adds to the tables;
* `hostnames_lt_of_maps` — no port with all its hostnames in its table has
  `UINT32_MAX` of them, whatever happened before;
* `process_config_maps_iff` — when all of a configuration that is reported as loaded is
  in the tables.
-/
import Freehttpd.ServerSockets

namespace Freehttpd

open Runs

/-! ### The loops -/

theorem FhConfig.declarations_ids (config : FhConfig) (al : ℕ → ℕ → IdAlloc) :
    (config.declarations al).map Declaration.id = config.ids := by
  have hids : ∀ (al : ℕ → IdAlloc) vhost ids j,
      (declareIds al vhost ids j).map Declaration.id = ids := by
    intro al vhost ids
    induction ids with
    | nil => exact fun _ => rfl
    | cons id ids ih => exact fun j => congrArg (id :: ·) (ih (j + 1))
  have hvhosts : ∀ vhosts i,
      (declareVhosts al vhosts i).map Declaration.id = vhosts.flatMap FhConfigVhost.idList := by
    intro vhosts
    induction vhosts with
    | nil => exact fun _ => rfl
    | cons vhost vhosts ih =>
      intro i
      rw [declareVhosts, List.map_append, hids, ih, List.flatMap_cons]
  exact hvhosts config.vhosts 0

theorem FhConfig.id_mem {config : FhConfig} {al : ℕ → ℕ → IdAlloc} {d : Declaration}
    (hd : d ∈ config.declarations al) : d.id ∈ config.ids := by
  rw [← config.declarations_ids al]
  exact List.mem_map_of_mem hd

theorem ServerState.Fresh.hosts {s : ServerState} (h : s.Fresh) (config : FhConfig) :
    HostsInv config s fun _ => [] := by
  constructor
  · intro port _
    rfl
  · intro port entry he
    rw [h.entryOf_eq] at he
    cases he
  · intro port q hq
    cases hq

theorem ServerState.Fresh.not_maps {s : ServerState} (h : s.Fresh) (port : UInt16)
    (hostname : StrKey) : ¬ s.Maps port hostname := by
  rintro ⟨entry, pe, he, -⟩
  rw [h.entryOf_eq] at he
  cases he

/-- One id, if no port has too many hostnames. -/
theorem declareStep_maps {config : FhConfig}
    (hlimit : ∀ port, (config.hostnames port).length < uint32Max) {s s' : ServerState}
    {d : Declaration} {o : Unit} (hinv : ∃ m hosts, PortsInv s m ∧ HostsInv config s hosts)
    (hid : d.id ∈ config.ids) (hstep : declareStep s d = some (o, s')) :
    (∃ m hosts, PortsInv s' m ∧ HostsInv config s' hosts) ∧
    ∀ port hostname, s'.Maps port hostname ↔ s.Maps port hostname ∨
      (d.id.port = port ∧ (d.id.hostname == hostname) = true ∧ d.Effective s) := by
  obtain ⟨m, hosts, hp, hh⟩ := hinv
  rw [declareStep_eq_some] at hstep
  rcases hh.processId hp hid (hlimit _) with ⟨hrun, -⟩ |
    ⟨s₁, m', hosts', hrun, hp', hh', -, -, hcase⟩
  · rw [hrun] at hstep
    cases hstep
  · obtain ⟨-, rfl⟩ := Prod.mk.inj (Option.some.inj (hrun.symm.trans hstep))
    exact ⟨⟨m', hosts', hp', hh'⟩, hh.maps_processId hh' hcase⟩

/-! ### Too many hostnames -/

/-- The tables of hosts hold 32-bit numbers in their index slots. -/
def ServerState.Small (s : ServerState) : Prop := ∀ t ∈ s.hostTables, SmallCells t.indexList

theorem ServerState.Small.of_entry {s : ServerState} (h : s.Small) {entry : ℕ}
    {pe : FhPortTableEntry} (hpe : s.portEntries[entry]? = some pe) :
    SmallCells pe.hostConfigTable.indexList :=
  h _ (List.mem_map_of_mem (List.mem_of_getElem? hpe))

theorem ServerState.Small.setHostname {s s' : ServerState} (h : s.Small) {al : IdAlloc}
    {vhost entry : ℕ} {hostname : StrKey}
    (hset : Freehttpd.setHostname al vhost hostname s entry = some s') : s'.Small := by
  rw [Freehttpd.setHostname, Option.bind_eq_bind, Option.bind_eq_some_iff] at hset
  obtain ⟨pe, hpe, hset⟩ := hset
  obtain ⟨r, hr, hset⟩ := Option.bind_eq_some_iff.mp hset
  rw [← Option.some.inj hset]
  intro t ht
  obtain ⟨pe', hpe', rfl⟩ := List.mem_map.mp ht
  -- Only the table of this entry was written.
  rcases List.mem_or_eq_of_mem_set hpe' with hpe' | rfl
  · exact h _ (List.mem_map_of_mem hpe')
  · exact (h.of_entry hpe).set hr

theorem ServerState.Small.createPortEntry {s s' : ServerState} (h : s.Small) {al : IdAlloc}
    {port : UInt16} {entry : ℕ}
    (hcreate : Freehttpd.createPortEntry al port s = some (some (entry, s'))) : s'.Small := by
  rw [Freehttpd.createPortEntry] at hcreate
  split at hcreate
  case isFalse => cases Option.some.inj hcreate
  obtain ⟨o, ho, hcreate⟩ := Option.bind_eq_some_iff.mp hcreate
  cases o with
  | none =>
    obtain ⟨live, -, hcreate⟩ := Option.bind_eq_some_iff.mp hcreate
    cases Option.some.inj hcreate
  | some table =>
    obtain ⟨r, -, hcreate⟩ := Option.bind_eq_some_iff.mp hcreate
    obtain ⟨-, rfl⟩ := Prod.mk.inj (Option.some.inj (Option.some.inj hcreate))
    intro t ht
    obtain ⟨pe, hpe, rfl⟩ := List.mem_map.mp ht
    rcases List.mem_append.mp hpe with hpe | hpe
    · exact h _ (List.mem_map_of_mem hpe)
    · rw [List.mem_singleton.mp hpe]
      obtain ⟨k, -, -, -, -, rfl⟩ := htableCreate_eq_some ho
      exact SmallCells.calloc _

theorem declareStep_small (s : ServerState) (d : Declaration) (o : Unit) (s' : ServerState)
    (h : s.Small) (hstep : declareStep s d = some (o, s')) : s'.Small := by
  rw [declareStep_eq_some, processId, Option.bind_eq_bind, Option.bind_eq_some_iff] at hstep
  obtain ⟨found, -, hstep⟩ := hstep
  cases found with
  | some entry =>
    obtain ⟨s₁, hset, hstep⟩ := Option.bind_eq_some_iff.mp hstep
    obtain ⟨-, rfl⟩ := Prod.mk.inj (Option.some.inj hstep)
    exact h.setHostname hset
  | none =>
    obtain ⟨created, hcreate, hstep⟩ := Option.bind_eq_some_iff.mp hstep
    cases created with
    | none => cases Option.some.inj hstep
    | some p =>
      obtain ⟨s₁, hset, hstep⟩ := Option.bind_eq_some_iff.mp hstep
      obtain ⟨-, rfl⟩ := Prod.mk.inj (Option.some.inj hstep)
      exact (h.createPortEntry hcreate).setHostname hset

/-- A table that has all hostnames of its port has less than `UINT32_MAX` of them. -/
theorem hostnames_lt_of_maps {config : FhConfig} {s : ServerState} (hsmall : s.Small)
    (hmaps : ∀ id ∈ config.ids, s.Maps id.port id.hostname) (port : UInt16) :
    (config.hostnames port).length < uint32Max := by
  -- For each string of bytes, an id that declares it.
  have hids : ∀ chars ∈ config.hostnames port, ∃ key : StrKey, key.chars = chars ∧
      s.Maps port key := by
    intro chars hc
    obtain ⟨id, hid, rfl, hchars⟩ := FhConfig.mem_hostnames.mp hc
    exact ⟨id.hostname, hchars, hmaps id hid⟩
  have : Nonempty StrKey := ⟨numberedKey 0⟩
  choose! key hchars hkey using hids
  rcases List.eq_nil_or_concat (config.hostnames port) with hnil | ⟨l, chars, hl⟩
  · rw [hnil]
    decide
  · -- They are all in the table of one port table entry.
    obtain ⟨entry, pe, he, hpe, -⟩ := hkey chars (by rw [hl]; simp)
    have hdist : ((config.hostnames port).map key).Pairwise fun k k' => (k == k') = false := by
      refine List.pairwise_map.mpr ((List.nodup_dedup _).imp_of_mem fun {a b} ha hb hne => ?_)
      rw [← Bool.not_eq_true, StrKey.beq_iff, hchars a ha, hchars b hb]
      exact hne
    have hhas : ∀ k ∈ (config.hostnames port).map key,
        htableHas pe.hostConfigTable k = some true := by
      intro k hk
      obtain ⟨c, hc, rfl⟩ := List.mem_map.mp hk
      obtain ⟨entry', pe', he', hpe', hhas⟩ := hkey c hc
      obtain rfl : entry = entry' := Option.some.inj (he.symm.trans he')
      rwa [Option.some.inj (hpe.symm.trans hpe')]
    have hlen := (hsmall.of_entry hpe).length_le hdist hhas
    rw [List.length_map] at hlen
    exact Nat.lt_of_le_of_lt hlen (by decide)

/-! ### Loading -/

/-- The two loops over the configuration are one, over its declarations. -/
theorem fhServerProcessConfig_eq (env : ServerEnv) (config : FhConfig) (s : ServerState) :
    fhServerProcessConfig env config s
      = (processDeclarations (config.declarations env.id) s).bind fun r =>
        if r.1 then (htableContents r.2.portTable).bind fun entries =>
          (createSockets env.socket entries 0 r.2 noSockets).map Prod.fst
        else some (false, r.2) := by
  rw [fhServerProcessConfig, fhServerProcessConfigOn, processVhosts_eq, FhConfig.declarations]
  simp only [Option.bind_eq_bind, Option.map_bind, Function.comp_def]
  refine congrArg _ (funext fun r => ?_)
  cases hmore : r.1 with
  | false => rfl
  | true => simp only [if_true, Option.map_bind, Function.comp_def]

/-- What `return true` means: the loops got to their ends. -/
theorem fhServerProcessConfig_eq_true {env : ServerEnv} {config : FhConfig} {s₀ s : ServerState}
    (hrun : fhServerProcessConfig env config s₀ = some (true, s)) :
    ∃ os s₁ entries k, runs declareStep s₀ (config.declarations env.id) = some (os, s₁) ∧
      htableContents s₁.portTable = some entries ∧
      createSockets env.socket entries 0 s₁ noSockets = some ((true, s), k) := by
  rw [fhServerProcessConfig_eq, Option.bind_eq_some_iff] at hrun
  obtain ⟨⟨more, s₁⟩, hloops, hrun⟩ := hrun
  cases more with
  | false => cases hrun
  | true =>
    obtain ⟨entries, hentries, hsockets⟩ := Option.bind_eq_some_iff.mp hrun
    obtain ⟨⟨r, k⟩, hsockets, rfl⟩ := Option.map_eq_some_iff.mp hsockets
    obtain ⟨os, hruns⟩ := processDeclarations_eq_true_iff.mp hloops
    exact ⟨os, s₁, entries, k, hruns, hentries, hsockets⟩

theorem ServerState.maps_congr {s s' : ServerState} (htable : s'.portTable = s.portTable)
    (hhosts : s'.hostTables = s.hostTables) (port : UInt16) (hostname : StrKey) :
    s'.Maps port hostname ↔ s.Maps port hostname := by
  have hmaps : ∀ s : ServerState, s.Maps port hostname ↔ ∃ entry t, s.entryOf port = some entry ∧
      s.hostTables[entry]? = some t ∧ htableHas t hostname = some true := by
    intro s
    constructor
    · rintro ⟨entry, pe, he, hpe, hhas⟩
      refine ⟨entry, pe.hostConfigTable, he, ?_, hhas⟩
      rw [hostTables, List.getElem?_map, hpe]
      rfl
    · rintro ⟨entry, t, he, ht, hhas⟩
      rw [hostTables, List.getElem?_map, Option.map_eq_some_iff] at ht
      obtain ⟨pe, hpe, rfl⟩ := ht
      exact ⟨entry, pe, he, hpe, hhas⟩
  rw [hmaps, hmaps, hhosts, entryOf, entryOf, htable]

/-- All of a configuration is in the tables only if no port has too many hostnames. -/
theorem hostnames_lt_of_config {env : ServerEnv} {config : FhConfig} {s₀ s : ServerState}
    (hfresh : s₀.Fresh) (hrun : fhServerProcessConfig env config s₀ = some (true, s))
    (hmaps : ∀ id ∈ config.ids, s.Maps id.port id.hostname) (port : UInt16) :
    (config.hostnames port).length < uint32Max := by
  obtain ⟨os, s₁, entries, k, hruns, -, hsockets⟩ := fhServerProcessConfig_eq_true hrun
  obtain ⟨htable, hhosts, -⟩ := createSockets_eq_some hsockets
  have hstart : s₀.Small := by
    intro t ht
    rw [ServerState.hostTables, hfresh.portEntries] at ht
    cases ht
  have hsmall : s₁.Small := runs_preserves (Q := fun _ => True)
    (fun s d o s' h _ => declareStep_small s d o s' h) hstart (fun _ _ => trivial) hruns
  exact hostnames_lt_of_maps hsmall
    (fun id hid => (ServerState.maps_congr htable hhosts _ _).mp (hmaps id hid)) port

/-- Answers of the allocations for an id, all of them successful. -/
def IdAlloc.ok : IdAlloc :=
  { portEntry := true
    hostTable := ⟨true, true, true⟩
    portCalloc := true
    portMalloc := true
    portShrink := true
    hostCalloc := true
    hostMalloc := true
    hostDup := some 100
    hostShrink := true }

/-- Every call succeeds, and the `n`th socket is number `n + 3`. -/
def ServerEnv.ok : ServerEnv :=
  { server := true
    portTable := ⟨true, true, true⟩
    id := fun _ _ => IdAlloc.ok
    socket := fun n => ⟨some (n + 3), true, true, true, true, true, true, true⟩ }

/-- The first call of `strdup` fails. -/
def firstCopyFails : ServerEnv :=
  { ServerEnv.ok with
    id := fun i j => if i = 0 ∧ j = 0 then { IdAlloc.ok with hostDup := none } else .ok }

/-- One virtual host with one id. -/
def oneHost : FhConfig := ⟨[⟨[⟨⟨1, [97], by decide⟩, 80⟩]⟩]⟩

/-- Two virtual hosts with an id in common. -/
def twoHosts : FhConfig :=
  ⟨[⟨[⟨⟨1, [97], by decide⟩, 80⟩, ⟨⟨2, [98], by decide⟩, 443⟩]⟩, ⟨[⟨⟨3, [97], by decide⟩, 80⟩]⟩]⟩

/-- A configuration that is reported as loaded is in the tables if and only if no port has
`UINT32_MAX` different hostnames and each pair is declared by an id whose calls of
`int_htable_set` and `str_htable_set` get the memory they need. -/
theorem process_config_maps_iff {env : ServerEnv} {config : FhConfig} {s₀ s : ServerState}
    (hfresh : s₀.Fresh) (hrun : fhServerProcessConfig env config s₀ = some (true, s)) :
    (∀ id ∈ config.ids, s.Maps id.port id.hostname) ↔
      (∀ port, (config.hostnames port).length < uint32Max) ∧
      ∀ id ∈ config.ids, SomeStep declareStep (fun s d => d.id.port = id.port ∧
        (d.id.hostname == id.hostname) = true ∧ d.Effective s) s₀ (config.declarations env.id) := by
  obtain ⟨os, s₁, entries, k, hruns, -, hsockets⟩ := fhServerProcessConfig_eq_true hrun
  obtain ⟨htable, hhosts, -⟩ := createSockets_eq_some hsockets
  have hids : ∀ d ∈ config.declarations env.id, d.id ∈ config.ids := fun d => FhConfig.id_mem
  -- Under the limit, a pair gets into the tables just when one of its ids is effective.
  have hiff : (∀ port, (config.hostnames port).length < uint32Max) →
      ∀ port hostname, s.Maps port hostname ↔ SomeStep declareStep (fun s d => d.id.port = port ∧
        (d.id.hostname == hostname) = true ∧ d.Effective s) s₀ (config.declarations env.id) := by
    intro hlimit port hostname
    have hstart : ∃ m hosts, PortsInv s₀ m ∧ HostsInv config s₀ hosts :=
      ⟨_, _, hfresh.ports, hfresh.hosts config⟩
    rw [ServerState.maps_congr htable hhosts, runs_iff_someStep
      (fun s d o s' hI hd hstep => ⟨(declareStep_maps hlimit hI hd hstep).1,
        (declareStep_maps hlimit hI hd hstep).2 port hostname⟩) hstart hids hruns]
    exact ⟨fun h => h.resolve_left (hfresh.not_maps port hostname), .inr⟩
  constructor
  · intro hmaps
    have hlimit := hostnames_lt_of_config hfresh hrun hmaps
    exact ⟨hlimit, fun id hid => (hiff hlimit _ _).mp (hmaps id hid)⟩
  · rintro ⟨hlimit, hsome⟩ id hid
    exact (hiff hlimit _ _).mpr (hsome id hid)

/-- Two virtual hosts; the first copy of a hostname fails, but the second virtual host has
the pair too. -/
theorem process_config_maps_again : ∃ s₀ s, s₀.Fresh ∧
    fhServerProcessConfig firstCopyFails twoHosts s₀ = some (true, s) ∧
    ((∀ id ∈ twoHosts.ids, s.Maps id.port id.hostname) ↔
      (∀ port, (twoHosts.hostnames port).length < uint32Max) ∧
      ∀ id ∈ twoHosts.ids, SomeStep declareStep (fun s d => d.id.port = id.port ∧
        (d.id.hostname == id.hostname) = true ∧ d.Effective s) s₀
          (twoHosts.declarations firstCopyFails.id)) := by
  obtain ⟨t, hcreate⟩ : ∃ t : Htable IntKey ℕ,
      htableCreate ⟨true, true, true⟩ 16 = some (some t) := ⟨_, rfl⟩
  have ht := Option.some.inj (Option.some.inj hcreate)
  have hrun : (fhServerProcessConfig firstCopyFails twoHosts
      ⟨t, [], [], [.portTable, .server]⟩).map Prod.fst = some true := by
    rw [← ht]
    decide +kernel
  obtain ⟨⟨more, s⟩, hr, rfl⟩ := Option.map_eq_some_iff.mp hrun
  have hfresh : ServerState.Fresh ⟨t, [], [], [.portTable, .server]⟩ := ⟨⟨_, hcreate⟩, rfl, rfl⟩
  exact ⟨_, s, hfresh, hr, process_config_maps_iff hfresh hr⟩

/-- One id, whose hostname `strdup` cannot copy: the configuration is reported as loaded,
and its only pair is missing. -/
theorem process_config_not_maps : ∃ s₀ s, s₀.Fresh ∧
    fhServerProcessConfig firstCopyFails oneHost s₀ = some (true, s) ∧
    ¬ ∀ id ∈ oneHost.ids, s.Maps id.port id.hostname := by
  obtain ⟨t, hcreate⟩ : ∃ t : Htable IntKey ℕ,
      htableCreate ⟨true, true, true⟩ 16 = some (some t) := ⟨_, rfl⟩
  have ht := Option.some.inj (Option.some.inj hcreate)
  have hrun : (fhServerProcessConfig firstCopyFails oneHost
      ⟨t, [], [], [.portTable, .server]⟩).map (fun r : Bool × ServerState =>
        (r.1, decide (∀ id ∈ oneHost.ids, r.2.Maps id.port id.hostname)))
        = some (true, false) := by
    rw [← ht]
    decide +kernel
  obtain ⟨⟨more, s⟩, hr, he⟩ := Option.map_eq_some_iff.mp hrun
  obtain ⟨rfl, hmaps⟩ := Prod.mk.inj he
  exact ⟨_, s, ⟨⟨_, hcreate⟩, rfl, rfl⟩, hr, of_decide_eq_false hmaps⟩

end Freehttpd
