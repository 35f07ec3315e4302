/-
The tables of hosts of the server while the configuration is loaded.

`HostsInv config s hosts` says that `hosts` is what the tables of hosts hold, port
by port: `none` for a port without a port table entry.  As an index slot of a
hash table has 32 bits, it is kept only while no port has `UINT32_MAX` different
hostnames.

* `Declaration.Effective` — an id gets its hostname into the table of its port,
  even if it is not there yet;
* `HostsInv.processId` — what one id does to the tables;
* `declare` — what it does if all its allocations succeed.
-/
import Freehttpd.HtableCells
import Freehttpd.ServerPorts
import Mathlib.Data.List.Dedup

namespace Freehttpd

open Runs

/-! ### The configuration -/

/-- All ids of the configuration. -/
def FhConfig.ids (config : FhConfig) : List FhConfigVhostId :=
  config.vhosts.flatMap FhConfigVhost.idList

/-- The different hostnames of a port. -/
def FhConfig.hostnames (config : FhConfig) (port : UInt16) : List (List UInt8) :=
  ((config.ids.filter fun id => id.port = port).map fun id => id.hostname.chars).dedup

theorem FhConfig.mem_hostnames {config : FhConfig} {port : UInt16} {chars : List UInt8} :
    chars ∈ config.hostnames port ↔
      ∃ id ∈ config.ids, id.port = port ∧ id.hostname.chars = chars := by
  rw [hostnames, List.mem_dedup, List.mem_map]
  simp only [List.mem_filter, decide_eq_true_eq, and_assoc]

/-! ### The tables -/

/-- What the tables of hosts hold: for every port the virtual hosts of its
hostnames. -/
abbrev Hosts := UInt16 → List (StrKey × Option ℕ)

/-- `hosts` is what the tables of hosts hold, and all of it was declared. -/
structure HostsInv (config : FhConfig) (s : ServerState) (hosts : Hosts) : Prop where
  unused : ∀ port, s.entryOf port = none → hosts port = []
  used : ∀ port entry, s.entryOf port = some entry → ∃ pe, s.portEntries[entry]? = some pe ∧
    MapOf pe.hostConfigTable (hosts port)
  declared : ∀ port, ∀ q ∈ hosts port, ∃ id ∈ config.ids, id.port = port ∧
    (q.1 == id.hostname) = true

/-- What an id does to the tables of hosts if it succeeds. -/
def declare (hosts : Hosts) (d : Declaration) : Hosts :=
  Function.update hosts d.id.port (Assoc.set (hosts d.id.port) d.id.hostname (some d.vhost))

/-- The allocations of `int_htable_set` and `str_htable_set` succeed, as far as these
need any to get the hostname into the table of its port. -/
def Declaration.Effective (d : Declaration) (s : ServerState) : Prop :=
  match s.entryOf d.id.port with
  | some entry => ∃ pe, s.portEntries[entry]? = some pe ∧
      (d.al.hostSet d.id.hostname).Suffice pe.hostConfigTable
  | none => (d.al.portSet (portKey d.id.port)).Suffice s.portTable ∧ d.al.hostDup.isSome

/-- The port has a port table entry, whose table of hosts has an entry for the
hostname. -/
def ServerState.Maps (s : ServerState) (port : UInt16) (hostname : StrKey) : Prop :=
  ∃ entry pe, s.entryOf port = some entry ∧ s.portEntries[entry]? = some pe ∧
    htableHas pe.hostConfigTable hostname = some true

instance (s : ServerState) (port : UInt16) (hostname : StrKey) :
    Decidable (s.Maps port hostname) :=
  decidable_of_iff (((s.entryOf port).bind fun entry => s.portEntries[entry]?.bind fun pe =>
    htableHas pe.hostConfigTable hostname) = some true) (by
      simp only [ServerState.Maps, Option.bind_eq_some_iff, exists_and_left])

namespace HostsInv

variable {config : FhConfig} {s : ServerState} {hosts : Hosts} {m : List (IntKey × Option ℕ)}

theorem maps_iff (h : HostsInv config s hosts) (port : UInt16) (hostname : StrKey) :
    s.Maps port hostname ↔ (Assoc.get (hosts port) hostname).isSome := by
  constructor
  · rintro ⟨entry, pe, he, hpe, hhas⟩
    obtain ⟨pe', hpe', hmap⟩ := h.used port entry he
    obtain rfl : pe = pe' := Option.some.inj (hpe.symm.trans hpe')
    rw [htableHas, hmap.getWithFlag_eq] at hhas
    exact Option.some.inj hhas
  · intro hget
    cases he : s.entryOf port with
    | none =>
      rw [h.unused port he] at hget
      cases hget
    | some entry =>
      obtain ⟨pe, hpe, hmap⟩ := h.used port entry he
      refine ⟨entry, pe, he, hpe, ?_⟩
      rw [htableHas, hmap.getWithFlag_eq, hget]
      rfl

/-- A hostname that is missing from a table is one of those that were declared. -/
theorem length_lt (h : HostsInv config s hosts) {id : FhConfigVhostId} (hid : id ∈ config.ids)
    (hdist : Assoc.Distinct (hosts id.port))
    (habsent : Assoc.get (hosts id.port) id.hostname = none) :
    (hosts id.port).length + 1 ≤ (config.hostnames id.port).length := by
  -- The keys of the table and the missing one are different strings, all of them declared.
  have hnd : (id.hostname.chars :: (hosts id.port).map fun q => q.1.chars).Nodup := by
    refine List.nodup_cons.mpr ⟨fun hm => ?_, List.pairwise_map.mpr (hdist.imp ?_)⟩
    · obtain ⟨q, hq, hchars⟩ := List.mem_map.mp hm
      have hne := Assoc.get_eq_none_iff.mp habsent q hq
      rw [StrKey.beq_iff.mpr hchars] at hne
      cases hne
    · intro q q' hne he
      rw [StrKey.beq_iff.mpr he] at hne
      cases hne
  have hsub : (id.hostname.chars :: (hosts id.port).map fun q => q.1.chars) ⊆
      config.hostnames id.port := by
    intro chars hm
    rw [FhConfig.mem_hostnames]
    rcases List.mem_cons.mp hm with rfl | hm
    · exact ⟨id, hid, rfl, rfl⟩
    · obtain ⟨q, hq, rfl⟩ := List.mem_map.mp hm
      obtain ⟨id', hid', hport, hkey⟩ := h.declared id.port q hq
      exact ⟨id', hid', hport, (StrKey.beq_iff.mp hkey).symm⟩
  have hlen := (List.subperm_of_subset hnd hsub).length_le
  rwa [List.length_cons, List.length_map] at hlen

/-- Replacing the table of a port. -/
theorem put (h : HostsInv config s hosts) (hp : PortsInv s m) {port : UInt16} {entry : ℕ}
    (he : s.entryOf port = some entry) (pe : FhPortTableEntry) {l : List (StrKey × Option ℕ)}
    (hmap : MapOf pe.hostConfigTable l)
    (hl : ∀ q ∈ l, ∃ id ∈ config.ids, id.port = port ∧ (q.1 == id.hostname) = true) :
    HostsInv config { s with portEntries := s.portEntries.set entry pe }
      (Function.update hosts port l) := by
  have hlt := hp.lt_length he
  constructor
  · intro port' hnone
    have hne : port' ≠ port := by
      rintro rfl
      rw [show s.entryOf port' = none from hnone] at he
      cases he
    rw [Function.update_of_ne hne]
    exact h.unused port' hnone
  · intro port' entry' he'
    by_cases hport : port' = port
    · subst hport
      obtain rfl : entry = entry' := Option.some.inj (he.symm.trans he')
      refine ⟨pe, ?_, by rwa [Function.update_self]⟩
      show (s.portEntries.set entry pe)[entry]? = some pe
      rw [List.getElem?_set_self hlt]
    · -- Another port has another port table entry.
      obtain ⟨pe', hpe', hmap'⟩ := h.used port' entry' he'
      have hne : entry ≠ entry' := by
        rintro rfl
        exact hport (hp.entryOf_inj he' he)
      refine ⟨pe', ?_, by rwa [Function.update_of_ne hport]⟩
      show (s.portEntries.set entry pe)[entry']? = some pe'
      rw [List.getElem?_set_ne hne, hpe']
  · intro port' q hq
    by_cases hport : port' = port
    · subst hport
      rw [Function.update_self] at hq
      exact hl q hq
    · rw [Function.update_of_ne hport] at hq
      exact h.declared port' q hq

/-- Replacing the table of a port table entry that no port has. -/
theorem put_orphan (h : HostsInv config s hosts) {entry : ℕ}
    (hno : ∀ port, s.entryOf port ≠ some entry) (pe : FhPortTableEntry) :
    HostsInv config { s with portEntries := s.portEntries.set entry pe } hosts := by
  constructor
  · exact h.unused
  · intro port' entry' he'
    obtain ⟨pe', hpe', hmap'⟩ := h.used port' entry' he'
    have hne : entry ≠ entry' := by
      rintro rfl
      exact hno port' he'
    refine ⟨pe', ?_, hmap'⟩
    show (s.portEntries.set entry pe)[entry']? = some pe'
    rw [List.getElem?_set_ne hne, hpe']
  · exact h.declared

/-- Setting a hostname in the table of a port. -/
theorem setHostname (h : HostsInv config s hosts) (hp : PortsInv s m) {id : FhConfigVhostId}
    (hid : id ∈ config.ids) (hlimit : (config.hostnames id.port).length < uint32Max) {entry : ℕ}
    (he : s.entryOf id.port = some entry) (al : IdAlloc) (vhost : ℕ) :
    ∃ s' pe, Freehttpd.setHostname al vhost id.hostname s entry = some s' ∧
      s.portEntries[entry]? = some pe ∧
      ((HostsInv config s' (Function.update hosts id.port
            (Assoc.set (hosts id.port) id.hostname (some vhost))) ∧
          (Assoc.get (hosts id.port) id.hostname = none →
            (al.hostSet id.hostname).Suffice pe.hostConfigTable)) ∨
        (¬ (al.hostSet id.hostname).Suffice pe.hostConfigTable ∧ HostsInv config s' hosts)) := by
  obtain ⟨pe, hpe, hmap⟩ := h.used id.port entry he
  obtain ⟨r, hr, -, hcase⟩ := hmap.set_key id.hostname
    (fun habsent => Nat.lt_of_le_of_lt (h.length_lt hid hmap.distinct habsent) hlimit)
    (some vhost) (al.hostSet id.hostname) false
  refine ⟨{ s with portEntries := s.portEntries.set entry { pe with hostConfigTable := r.table } },
    pe, ?_, hpe, hcase.imp ?_ ?_⟩
  · rw [Freehttpd.setHostname, hpe]
    simp only [Option.bind_eq_bind, Option.bind_some, hr]
  · rintro ⟨hmap', hsuff⟩
    refine ⟨h.put hp he { pe with hostConfigTable := r.table } hmap' (fun q hq => ?_), hsuff⟩
    by_cases hany : (Assoc.get (hosts id.port) id.hostname).isSome
    · -- Overwriting keeps the keys.
      have hkeys := Assoc.map_fst_set (hosts id.port) id.hostname (some vhost)
      rw [if_pos hany] at hkeys
      have hmem : q.1 ∈ (hosts id.port).map Prod.fst := hkeys ▸ List.mem_map_of_mem hq
      obtain ⟨q', hq', hfst⟩ := List.mem_map.mp hmem
      rw [← hfst]
      exact h.declared id.port q' hq'
    · rw [Assoc.set_of_absent (Option.not_isSome_iff_eq_none.mp hany)] at hq
      rcases List.mem_append.mp hq with hq | hq
      · exact h.declared id.port q hq
      · rw [List.mem_singleton.mp hq]
        exact ⟨id, hid, rfl, BEq.rfl⟩
  · rintro ⟨hns, hmap'⟩
    -- The table may have grown, but it holds what it held.
    have hput := h.put hp he { pe with hostConfigTable := r.table } hmap' (h.declared id.port)
    rw [Function.update_eq_self] at hput
    exact ⟨hns, hput⟩

/-- Setting a hostname in the table of a port table entry that no port has. -/
theorem setHostname_orphan (h : HostsInv config s hosts) {entry : ℕ}
    (hno : ∀ port, s.entryOf port ≠ some entry) {t : Htable StrKey ℕ}
    (hentry : s.portEntries[entry]? = some { hostConfigTable := t, sockfd := 0 })
    (hmap : MapOf t []) (al : IdAlloc) (vhost : ℕ) (hostname : StrKey) :
    ∃ s', Freehttpd.setHostname al vhost hostname s entry = some s' ∧
      HostsInv config s' hosts := by
  obtain ⟨r, hr, -, -⟩ := hmap.set_key hostname (fun _ => by decide) (some vhost)
    (al.hostSet hostname) false
  refine ⟨{ s with
    portEntries := s.portEntries.set entry { hostConfigTable := r.table, sockfd := 0 } }, ?_,
    h.put_orphan hno { hostConfigTable := r.table, sockfd := 0 }⟩
  rw [Freehttpd.setHostname, hentry]
  simp only [Option.bind_eq_bind, Option.bind_some, hr]

/-- A port table entry is added, and enters the port table or not. -/
theorem append (h : HostsInv config s hosts) {port : UInt16}
    (hnone : s.entryOf port = none) {s' : ServerState} {t : Htable StrKey ℕ}
    (hentries : s'.portEntries = s.portEntries ++ [{ hostConfigTable := t, sockfd := 0 }])
    (hmap : MapOf t [])
    (hentry : ∀ port', s'.entryOf port' = s.entryOf port' ∨
      (port' = port ∧ s'.entryOf port' = some s.portEntries.length)) :
    HostsInv config s' hosts := by
  constructor
  · intro port' hnone'
    rcases hentry port' with he | ⟨-, he⟩
    · exact h.unused port' (he.symm.trans hnone')
    · rw [he] at hnone'
      cases hnone'
  · intro port' entry' he'
    rcases hentry port' with he | ⟨rfl, he⟩
    · obtain ⟨pe', hpe', hmap'⟩ := h.used port' entry' (he.symm.trans he')
      refine ⟨pe', ?_, hmap'⟩
      rw [hentries, List.getElem?_append_left (List.getElem?_eq_some_iff.mp hpe').1, hpe']
    · refine ⟨{ hostConfigTable := t, sockfd := 0 }, ?_, by rwa [h.unused port' hnone]⟩
      rw [hentries, ← Option.some.inj (he.symm.trans he'), List.getElem?_concat_length]
  · exact h.declared

/-- An id whose port has a port table entry. -/
theorem processId_used (h : HostsInv config s hosts) (hp : PortsInv s m) {d : Declaration}
    (hid : d.id ∈ config.ids) (hlimit : (config.hostnames d.id.port).length < uint32Max)
    {entry : ℕ} (he : s.entryOf d.id.port = some entry) :
    ∃ s' hosts', Freehttpd.processId d.al d.vhost d.id s = some (true, s') ∧ PortsInv s' m ∧
      HostsInv config s' hosts' ∧ (∀ port, s'.entryOf port = s.entryOf port) ∧
      ((hosts' = declare hosts d ∧
          (Assoc.get (hosts d.id.port) d.id.hostname = none → d.Effective s)) ∨
        (hosts' = hosts ∧ ¬ d.Effective s)) := by
  obtain ⟨s', pe, hset, hpe, hcase⟩ := h.setHostname hp hid hlimit he d.al d.vhost
  obtain ⟨htable, hlen, -, -⟩ := setHostname_eq_some hset
  have heff : d.Effective s ↔ (d.al.hostSet d.id.hostname).Suffice pe.hostConfigTable := by
    rw [Declaration.Effective, he]
    constructor
    · rintro ⟨pe', hpe', hs⟩
      rwa [Option.some.inj (hpe.symm.trans hpe')]
    · intro hs
      exact ⟨pe, hpe, hs⟩
  have hrun : Freehttpd.processId d.al d.vhost d.id s = some (true, s') := by
    rw [Freehttpd.processId, hp.htableGet_eq, he]
    simp only [Option.bind_eq_bind, Option.bind_some, hset]
  have hentry : ∀ port, s'.entryOf port = s.entryOf port := by
    intro port
    rw [ServerState.entryOf, htable, ServerState.entryOf]
  rcases hcase with ⟨hinv, hs⟩ | ⟨hns, hinv⟩
  · exact ⟨s', _, hrun, hp.congr htable hlen.ge, hinv, hentry,
      .inl ⟨rfl, fun habsent => heff.mpr (hs habsent)⟩⟩
  · exact ⟨s', _, hrun, hp.congr htable hlen.ge, hinv, hentry,
      .inr ⟨rfl, fun he => hns (heff.mp he)⟩⟩

/-- An id whose port gets a port table entry.  If that does not enter the port table, it
is lost, and the hostname with it. -/
theorem processId_unused (h : HostsInv config s hosts) (hp : PortsInv s m) {d : Declaration}
    (hid : d.id ∈ config.ids) (hlimit : (config.hostnames d.id.port).length < uint32Max)
    (he : s.entryOf d.id.port = none) (hcreates : d.al.Creates) :
    ∃ s' m' hosts', Freehttpd.processId d.al d.vhost d.id s = some (true, s') ∧
      PortsInv s' m' ∧ HostsInv config s' hosts' ∧
      (∀ port, s'.entryOf port = s.entryOf port ∨
        (port = d.id.port ∧ s'.entryOf port = some s.portEntries.length)) ∧
      ((d.Effective s ∧ hosts' = declare hosts d ∧ (s'.entryOf d.id.port).isSome) ∨
        (¬ d.Effective s ∧ hosts' = hosts)) := by
  have heff : d.Effective s ↔
      (d.al.portSet (portKey d.id.port)).Suffice s.portTable ∧ d.al.hostDup.isSome := by
    rw [Declaration.Effective, he]
  rcases hp.createPortEntry he d.al with ⟨hns, -⟩ |
    ⟨-, t, s₁, htable, hgrow, hcreate, hentries, -, -, hcase⟩
  · exact absurd hcreates hns
  obtain ⟨hmap, -⟩ := MapOf.create (by decide) htable
  have hpe : s₁.portEntries[s.portEntries.length]?
      = some { hostConfigTable := t, sockfd := 0 } := by
    rw [hentries, List.getElem?_concat_length]
  have hrun : ∀ {s' : ServerState}, Freehttpd.setHostname d.al d.vhost d.id.hostname s₁
      s.portEntries.length = some s' →
      Freehttpd.processId d.al d.vhost d.id s = some (true, s') := by
    intro s' hset
    rw [Freehttpd.processId, hp.htableGet_eq, he]
    simp only [Option.bind_eq_bind, Option.bind_some, hcreate, hset]
  rcases hcase with ⟨hport, hp₁⟩ | ⟨hnport, hp₁⟩
  · have hentry := hp₁.entryOf_append hp he
    have hself : s₁.entryOf d.id.port = some s.portEntries.length := by
      rw [hentry, if_pos rfl]
    have h₁ := h.append he hentries hmap fun port => by
      rw [hentry]
      split
      · rename_i hport'
        exact .inr ⟨hport'.symm, rfl⟩
      · exact .inl rfl
    obtain ⟨s', pe, hset, hpe', hcase⟩ := h₁.setHostname hp₁ hid hlimit hself d.al d.vhost
    obtain ⟨htab, hlen, -, -⟩ := setHostname_eq_some hset
    have hentry' : ∀ port, s'.entryOf port = s₁.entryOf port := by
      intro port
      rw [ServerState.entryOf, htab, ServerState.entryOf]
    -- The new table does not have to grow.
    have hsuff : (d.al.hostSet d.id.hostname).Suffice pe.hostConfigTable ↔ d.al.hostDup.isSome := by
      rw [← Option.some.inj (hpe.symm.trans hpe'), SetAlloc.Suffice, hgrow, IdAlloc.hostSet,
        strSetAlloc, Option.isSome_map]
      simp
    have hports : ∀ port, s'.entryOf port = s.entryOf port ∨
        (port = d.id.port ∧ s'.entryOf port = some s.portEntries.length) := by
      intro port
      rw [hentry', hentry]
      split
      · rename_i hport'
        exact .inr ⟨hport'.symm, rfl⟩
      · exact .inl rfl
    rcases hcase with ⟨hinv, hs⟩ | ⟨hns, hinv⟩
    · -- An empty table has no hostname to overwrite, so the copy was needed.
      have hget : Assoc.get (hosts d.id.port) d.id.hostname = none := by
        rw [h.unused _ he]
        rfl
      refine ⟨s', _, _, hrun hset, hp₁.congr htab hlen.ge, hinv, hports,
        .inl ⟨heff.mpr ⟨hport, hsuff.mp (hs hget)⟩, rfl, ?_⟩⟩
      rw [hentry', hself]
      rfl
    · exact ⟨s', _, _, hrun hset, hp₁.congr htab hlen.ge, hinv, hports,
        .inr ⟨fun hd => hns (hsuff.mpr (heff.mp hd).2), rfl⟩⟩
  · -- The new entry is not in the port table, and its number is that of no port.
    have hentry := hp₁.entryOf_congr hp
    have h₁ := h.append he hentries hmap fun port => .inl (hentry port)
    have hno : ∀ port, s₁.entryOf port ≠ some s.portEntries.length := by
      intro port hs
      rw [hentry] at hs
      exact Nat.lt_irrefl _ (hp.lt_length hs)
    obtain ⟨s', hset, hinv⟩ := h₁.setHostname_orphan hno hpe hmap d.al d.vhost d.id.hostname
    obtain ⟨htab, hlen, -, -⟩ := setHostname_eq_some hset
    refine ⟨s', m, hosts, hrun hset, hp₁.congr htab hlen.ge, hinv, fun port => .inl ?_,
      .inr ⟨fun hd => hnport (heff.mp hd).1, rfl⟩⟩
    rw [ServerState.entryOf, htab]
    exact hentry port

/-- One id: the loops stop, it enters the tables, or it does not. -/
theorem processId (h : HostsInv config s hosts) (hp : PortsInv s m) {d : Declaration}
    (hid : d.id ∈ config.ids) (hlimit : (config.hostnames d.id.port).length < uint32Max) :
    (Freehttpd.processId d.al d.vhost d.id s = some (false, s) ∧ ¬ d.al.Creates) ∨
    ∃ s' m' hosts', Freehttpd.processId d.al d.vhost d.id s = some (true, s') ∧
      PortsInv s' m' ∧ HostsInv config s' hosts' ∧
      (∀ port, s'.entryOf port = s.entryOf port ∨ port = d.id.port) ∧
      (d.Effective s → (s'.entryOf d.id.port).isSome) ∧
      ((hosts' = declare hosts d ∧
          (Assoc.get (hosts d.id.port) d.id.hostname = none → d.Effective s)) ∨
        (hosts' = hosts ∧ ¬ d.Effective s)) := by
  cases he : s.entryOf d.id.port with
  | some entry =>
    obtain ⟨s', hosts', hrun, hp', hinv, hentry, hcase⟩ := h.processId_used hp hid hlimit he
    refine .inr ⟨s', m, hosts', hrun, hp', hinv, fun port => .inl (hentry port), fun _ => ?_, hcase⟩
    rw [hentry, he]
    rfl
  | none =>
    by_cases hcreates : d.al.Creates
    · obtain ⟨s', m', hosts', hrun, hp', hinv, hentry, hcase⟩ :=
        h.processId_unused hp hid hlimit he hcreates
      refine .inr ⟨s', m', hosts', hrun, hp', hinv,
        fun port => (hentry port).imp_right And.left, ?_⟩
      rcases hcase with ⟨heff, rfl, hsome⟩ | ⟨hneff, rfl⟩
      · exact ⟨fun _ => hsome, .inl ⟨rfl, fun _ => heff⟩⟩
      · exact ⟨fun heff => absurd heff hneff, .inr ⟨rfl, hneff⟩⟩
    · exact .inl ⟨hp.processId_stop he hcreates, hcreates⟩

/-- What an id does to the lookups. -/
theorem maps_processId {s' : ServerState} {hosts' : Hosts} (h : HostsInv config s hosts)
    (h' : HostsInv config s' hosts') {d : Declaration}
    (hcase : (hosts' = declare hosts d ∧
          (Assoc.get (hosts d.id.port) d.id.hostname = none → d.Effective s)) ∨
        (hosts' = hosts ∧ ¬ d.Effective s)) (port : UInt16) (hostname : StrKey) :
    s'.Maps port hostname ↔ s.Maps port hostname ∨
      (d.id.port = port ∧ (d.id.hostname == hostname) = true ∧ d.Effective s) := by
  rw [h.maps_iff, h'.maps_iff]
  rcases hcase with ⟨rfl, habsent⟩ | ⟨rfl, hneff⟩
  · by_cases hport : port = d.id.port
    · subst hport
      rw [declare, Function.update_self, Assoc.get_set]
      by_cases hname : (d.id.hostname == hostname) = true
      · -- If the hostname was there before, overwriting it needs no allocation.
        rw [if_pos hname, ← Assoc.get_congr hname]
        cases hget : Assoc.get (hosts d.id.port) d.id.hostname with
        | none => exact iff_of_true rfl (.inr ⟨rfl, hname, habsent hget⟩)
        | some v => exact iff_of_true rfl (.inl rfl)
      · rw [if_neg hname]
        exact ⟨.inl, fun hor => hor.resolve_right fun hd => hname hd.2.1⟩
    · rw [declare, Function.update_of_ne hport]
      exact ⟨.inl, fun hor => hor.resolve_right fun hd => hport hd.1.symm⟩
  · exact ⟨.inl, fun hor => hor.resolve_right fun hd => hneff hd.2.2⟩

end HostsInv

end Freehttpd
