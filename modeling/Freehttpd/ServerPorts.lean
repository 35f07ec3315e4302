/-
The port table of the server while the configuration is loaded.

* `processVhosts_eq` — the two nested loops are one loop over the ids of the
  configuration;
* `PortsInv` — the port table maps ports to port table entries of their own; it
  is small whatever the configuration is, for there are only `2 ^ 16` ports;
* `PortsInv.createPortEntry`, `PortsInv.processId` — an id keeps it, whatever the
  allocations answer and whatever happens to the tables of hosts.
-/
import Freehttpd.Runs
import Freehttpd.Server

namespace Freehttpd

open Runs

/-! ### One loop -/

/-- An id of the configuration, the number of its virtual host, and the answers of the
allocations for it. -/
structure Declaration where
  al : IdAlloc
  vhost : ℕ
  id : FhConfigVhostId

/-- The ids of a virtual host from number `j` on. -/
def declareIds (al : ℕ → IdAlloc) (vhost : ℕ) : List FhConfigVhostId → ℕ → List Declaration
  | [], _ => []
  | id :: ids, j => ⟨al j, vhost, id⟩ :: declareIds al vhost ids (j + 1)

/-- The ids of the virtual hosts from number `i` on. -/
def declareVhosts (al : ℕ → ℕ → IdAlloc) : List FhConfigVhost → ℕ → List Declaration
  | [], _ => []
  | vhost :: vhosts, i => declareIds (al i) i vhost.idList 0 ++ declareVhosts al vhosts (i + 1)

/-- The ids of the configuration, in its order. -/
def FhConfig.declarations (config : FhConfig) (al : ℕ → ℕ → IdAlloc) : List Declaration :=
  declareVhosts al config.vhosts 0

/-- The two loops as one. -/
def processDeclarations : List Declaration → ServerState → Option (Bool × ServerState)
  | [], s => some (true, s)
  | d :: ds, s => do
    let (more, s) ← processId d.al d.vhost d.id s
    if more then processDeclarations ds s else some (false, s)

theorem processDeclarations_append (ds₁ ds₂ : List Declaration) (s : ServerState) :
    processDeclarations (ds₁ ++ ds₂) s = (processDeclarations ds₁ s).bind fun r =>
      if r.1 then processDeclarations ds₂ r.2 else some r := by
  induction ds₁ generalizing s with
  | nil => rfl
  | cons d ds₁ ih =>
    rw [List.cons_append, processDeclarations, processDeclarations]
    -- The second list is only reached if no id of the first one stops the loop.
    cases hd : processId d.al d.vhost d.id s with
    | none => rfl
    | some r =>
      obtain ⟨more, s'⟩ := r
      cases more with
      | false => rfl
      | true => exact ih s'

theorem processIds_eq (al : ℕ → IdAlloc) (vhost : ℕ) (ids : List FhConfigVhostId) (j : ℕ)
    (s : ServerState) :
    processIds al vhost ids j s = processDeclarations (declareIds al vhost ids j) s := by
  induction ids generalizing j s with
  | nil => rfl
  | cons id ids ih =>
    rw [processIds, declareIds, processDeclarations]
    simp only [ih]

theorem processVhosts_eq (al : ℕ → ℕ → IdAlloc) (vhosts : List FhConfigVhost) (i : ℕ)
    (s : ServerState) :
    processVhosts al vhosts i s = processDeclarations (declareVhosts al vhosts i) s := by
  induction vhosts generalizing i s with
  | nil => rfl
  | cons vhost vhosts ih =>
    rw [processVhosts, declareVhosts, processDeclarations_append, processIds_eq]
    simp only [ih, Option.bind_eq_bind]
    cases processDeclarations (declareIds (al i) i vhost.idList 0) s with
    | none => rfl
    | some r => obtain ⟨_ | _, s'⟩ := r <;> rfl

/-- The machine whose inputs are the ids of the configuration; it stops at an id for
which an allocation of the loop body itself fails. -/
def declareStep (s : ServerState) (d : Declaration) : Option (Unit × ServerState) := do
  let (more, s) ← processId d.al d.vhost d.id s
  if more then some ((), s) else none

theorem declareStep_eq_some {s t : ServerState} {d : Declaration} {o : Unit} :
    declareStep s d = some (o, t) ↔ processId d.al d.vhost d.id s = some (true, t) := by
  rw [declareStep]
  cases processId d.al d.vhost d.id s with
  | none => simp
  | some r => obtain ⟨_ | _, s'⟩ := r <;> simp

/-- The loop gets to its end if and only if the machine does. -/
theorem processDeclarations_eq_true_iff {ds : List Declaration} {s t : ServerState} :
    processDeclarations ds s = some (true, t) ↔ ∃ os, runs declareStep s ds = some (os, t) := by
  induction ds generalizing s with
  | nil => simp [processDeclarations, runs]
  | cons d ds ih =>
    rw [processDeclarations, runs, declareStep]
    cases processId d.al d.vhost d.id s with
    | none => simp
    | some r =>
      obtain ⟨more, s'⟩ := r
      cases more with
      | false => simp
      | true =>
        simp only [Option.bind_eq_bind, Option.bind_some, if_true, ih]
        constructor
        · rintro ⟨os, hr⟩
          exact ⟨() :: os, by rw [hr]; rfl⟩
        · rintro ⟨os, hr⟩
          obtain ⟨⟨os', t'⟩, hr', he⟩ := Option.bind_eq_some_iff.mp hr
          obtain ⟨-, rfl⟩ := Prod.mk.inj (Option.some.inj he)
          exact ⟨os', hr'⟩

/-! ### Fresh tables -/

/-- All three allocations succeed. -/
def CreateAlloc.Succeed (al : CreateAlloc) : Prop :=
  al.table = true ∧ al.indexList = true ∧ al.entries = true

instance (al : CreateAlloc) : Decidable al.Succeed := inferInstanceAs (Decidable (_ ∧ _ ∧ _))

/-- A table created for 16 slots has room for a first key. -/
theorem htableCreate_cases (K D : Type) (al : CreateAlloc) :
    (¬ al.Succeed ∧ (htableCreate al 16 : Option (Option (Htable K D))) = some none) ∨
    (al.Succeed ∧ ∃ t : Htable K D, htableCreate al 16 = some (some t) ∧
      t.mustGrow = false) := by
  have hround : utilRoundCeil2Ull 16 = some 16 := by decide
  obtain ⟨table, indexList, entries⟩ := al
  by_cases hal : CreateAlloc.Succeed ⟨table, indexList, entries⟩
  · obtain ⟨rfl, rfl, rfl⟩ := hal
    obtain ⟨t, hcreate⟩ : ∃ t : Htable K D, htableCreate ⟨true, true, true⟩ 16 = some (some t) :=
      ⟨_, rfl⟩
    refine .inr ⟨⟨rfl, rfl, rfl⟩, t, hcreate, ?_⟩
    rw [← Option.some.inj (Option.some.inj hcreate)]
    rfl
  · refine .inl ⟨hal, ?_⟩
    rw [htableCreate, if_pos (by decide), hround]
    simp only [Option.bind_eq_bind, Option.bind_some]
    rw [if_neg]
    simpa [CreateAlloc.Succeed, and_assoc] using hal

/-! ### Ports -/

theorem portKey_beq_iff {port port' : UInt16} :
    (portKey port == portKey port') = true ↔ port = port' := by
  rw [beq_iff_eq, portKey, portKey, IntKey.mk.injEq]
  constructor
  · intro h
    have h := congrArg UInt64.toUInt16 h
    rwa [UInt16.toUInt16_toUInt64, UInt16.toUInt16_toUInt64] at h
  · rintro rfl
    rfl

/-- The port table entry of a port. -/
def ServerState.entryOf (s : ServerState) (port : UInt16) : Option ℕ :=
  (htableGet s.portTable (portKey port)).join

/-- The port table holds the map `m` of ports to port table entries, each its own. -/
structure PortsInv (s : ServerState) (m : List (IntKey × Option ℕ)) : Prop where
  table : MapOf s.portTable m
  next_le : s.portTable.entryNextInsert ≤ 2 ^ 16
  keys : ∀ q ∈ m, ∃ port entry, q = (portKey port, some entry) ∧ entry < s.portEntries.length
  inj : ∀ port port' entry, Assoc.get m (portKey port) = some (some entry) →
    Assoc.get m (portKey port') = some (some entry) → port = port'

/-- The server is as `fh_server_create` hands it to `fh_server_process_config`. -/
structure ServerState.Fresh (s : ServerState) : Prop where
  table : ∃ al, htableCreate al 16 = some (some s.portTable)
  portEntries : s.portEntries = []
  sockets : s.sockets = []

theorem ServerState.Fresh.ports {s : ServerState} (h : s.Fresh) : PortsInv s [] := by
  obtain ⟨al, hcreate⟩ := h.table
  obtain ⟨hmap, hnext⟩ := MapOf.create (by decide) hcreate
  constructor
  · exact hmap
  · rw [hnext]
    exact Nat.zero_le _
  · intro q hq
    cases hq
  · intro port port' entry hget
    cases hget

theorem ServerState.Fresh.entryOf_eq {s : ServerState} (h : s.Fresh) (port : UInt16) :
    s.entryOf port = none := by
  rw [ServerState.entryOf, h.ports.table.get_eq]
  rfl

namespace PortsInv

variable {s : ServerState} {m : List (IntKey × Option ℕ)}

theorem htableGet_eq (h : PortsInv s m) (port : UInt16) :
    htableGet s.portTable (portKey port) = some (s.entryOf port) := by
  rw [ServerState.entryOf, h.table.get_eq]
  rfl

theorem get_eq (h : PortsInv s m) (port : UInt16) :
    Assoc.get m (portKey port) = (s.entryOf port).map some := by
  rw [ServerState.entryOf, h.table.get_eq]
  cases hget : Assoc.get m (portKey port) with
  | none => rfl
  | some d =>
    obtain ⟨q, hq, -, rfl⟩ := (Assoc.get_eq_some_iff h.table.distinct).mp hget
    obtain ⟨port', entry, rfl, -⟩ := h.keys q hq
    rfl

theorem htableHas_eq (h : PortsInv s m) (port : UInt16) :
    htableHas s.portTable (portKey port) = some (s.entryOf port).isSome := by
  rw [htableHas, h.table.getWithFlag_eq, h.get_eq]
  cases s.entryOf port with
  | none => rfl
  | some entry => rfl

theorem lt_length (h : PortsInv s m) {port : UInt16} {entry : ℕ}
    (he : s.entryOf port = some entry) : entry < s.portEntries.length := by
  have hget := h.get_eq port
  rw [he, Option.map_some] at hget
  obtain ⟨q, hq, -, hd⟩ := (Assoc.get_eq_some_iff h.table.distinct).mp hget
  obtain ⟨port', entry', rfl, hlt⟩ := h.keys q hq
  rwa [← Option.some.inj hd]

theorem entryOf_inj (h : PortsInv s m) {port port' : UInt16} {entry : ℕ}
    (he : s.entryOf port = some entry) (he' : s.entryOf port' = some entry) : port = port' := by
  refine h.inj port port' entry ?_ ?_
  · rw [h.get_eq, he]
    rfl
  · rw [h.get_eq, he']
    rfl

theorem entryOf_congr {s' : ServerState} (h' : PortsInv s' m) (h : PortsInv s m)
    (port : UInt16) : s'.entryOf port = s.entryOf port :=
  Option.map_injective (Option.some_injective ℕ) ((h'.get_eq port).symm.trans (h.get_eq port))

/-- A new port table entry is that of its port alone. -/
theorem entryOf_append {s' : ServerState} {port : UInt16} {entry : ℕ}
    (h' : PortsInv s' (m ++ [(portKey port, some entry)])) (h : PortsInv s m)
    (hnone : s.entryOf port = none) (port' : UInt16) :
    s'.entryOf port' = if port = port' then some entry else s.entryOf port' := by
  have heq := h'.get_eq port'
  have hget : Assoc.get m (portKey port) = none := by
    rw [h.get_eq, hnone]
    rfl
  rw [← Assoc.set_of_absent hget, Assoc.get_set, h.get_eq] at heq
  simp only [portKey_beq_iff] at heq
  refine Option.map_injective (Option.some_injective ℕ) (heq.symm.trans ?_)
  split
  · rfl
  · rfl

/-- What the loops over the port table meet: the port table entries of the ports. -/
theorem contents (h : PortsInv s m) :
    ∃ l, htableContents s.portTable = some l ∧
      (∀ dataFreeCb, htableFreeWithCleanup s.portTable dataFreeCb (s.portTable.count + 1)
        = some (cleanupOf dataFreeCb l)) ∧
      Assoc.Distinct l ∧
      ∀ q, q ∈ l ↔ ∃ port entry, q = (portKey port, some entry) ∧ s.entryOf port = some entry := by
  obtain ⟨l, hl, hfree, hdist, hget⟩ := h.table.contents
  refine ⟨l, hl, hfree, hdist, fun q => ⟨fun hq => ?_, ?_⟩⟩
  · -- What is met is in the map, whose keys are those of ports.
    have hq' : Assoc.get m q.1 = some q.2 := by
      rw [← hget]
      exact (Assoc.get_eq_some_iff hdist).mpr ⟨q, hq, BEq.rfl, rfl⟩
    obtain ⟨q', hmem, hkey, hdata⟩ := (Assoc.get_eq_some_iff h.table.distinct).mp hq'
    obtain ⟨port, entry, rfl, -⟩ := h.keys q' hmem
    have hport : q.1 = portKey port := (beq_iff_eq.mp hkey).symm
    refine ⟨port, entry, Prod.ext hport hdata.symm, ?_⟩
    rw [hport, ← hdata, h.get_eq] at hq'
    exact Option.map_injective (Option.some_injective ℕ) hq'
  · rintro ⟨port, entry, rfl, he⟩
    have hq' : Assoc.get l (portKey port) = some (some entry) := by
      rw [hget, h.get_eq, he]
      rfl
    obtain ⟨q, hq, hkey, hdata⟩ := (Assoc.get_eq_some_iff hdist).mp hq'
    have hqe : q = (portKey port, some entry) := Prod.ext (beq_iff_eq.mp hkey) hdata
    rwa [← hqe]

/-- There are `2 ^ 16` ports, so a port that is missing fits. -/
theorem length_lt (h : PortsInv s m) {port : UInt16} (hnone : s.entryOf port = none) :
    m.length + 1 ≤ 2 ^ 16 := by
  have hdist : Assoc.Distinct (Assoc.set m (portKey port) none) := h.table.distinct.set _ _
  have hlen := hdist.length_le (N := 2 ^ 16)
    (R := fun q n => ∃ port : UInt16, q.1 = portKey port ∧ n = port.toNat)
    (fun q hq => ?_) (fun q _ q' _ n hn hn' => ?_)
  · rwa [Assoc.length_set, h.get_eq, hnone] at hlen
  · -- Every key is that of a port, the new one included.
    have hkey : ∃ port : UInt16, q.1 = portKey port := by
      rw [Assoc.set_of_absent (by rw [h.get_eq, hnone]; rfl)] at hq
      rcases List.mem_append.mp hq with hq | hq
      · obtain ⟨port', entry, rfl, -⟩ := h.keys q hq
        exact ⟨port', rfl⟩
      · rw [List.mem_singleton.mp hq]
        exact ⟨port, rfl⟩
    obtain ⟨port', hk⟩ := hkey
    exact ⟨port'.toNat, port'.toNat_lt, port', hk, rfl⟩
  · obtain ⟨port₁, hk₁, hn⟩ := hn
    obtain ⟨port₂, hk₂, hn'⟩ := hn'
    rw [hk₁, hk₂, UInt16.toNat_inj.mp (hn.symm.trans hn')]
    exact beq_self_eq_true _

/-- The invariant only sees what the port table holds and the number of port table
entries. -/
theorem of_map (h : PortsInv s m) {s' : ServerState} (hmap : MapOf s'.portTable m)
    (hnext : s'.portTable.entryNextInsert ≤ 2 ^ 16)
    (hlen : s.portEntries.length ≤ s'.portEntries.length) : PortsInv s' m := by
  constructor
  · exact hmap
  · exact hnext
  · intro q hq
    obtain ⟨port, entry, hqe, hlt⟩ := h.keys q hq
    exact ⟨port, entry, hqe, Nat.lt_of_lt_of_le hlt hlen⟩
  · exact h.inj

theorem congr (h : PortsInv s m) {s' : ServerState} (htable : s'.portTable = s.portTable)
    (hlen : s.portEntries.length ≤ s'.portEntries.length) : PortsInv s' m :=
  h.of_map (htable ▸ h.table) (htable ▸ h.next_le) hlen

/-- A new port table entry enters the port table, unless an allocation fails. -/
theorem insert (h : PortsInv s m) {port : UInt16} (hnone : s.entryOf port = none)
    (al : IdAlloc) :
    ∃ r, htableSetWithFlag s.portTable (portKey port) (some s.portEntries.length)
        (al.portSet (portKey port)) false = some r ∧
      ∀ s' : ServerState, s'.portTable = r.table →
        s'.portEntries.length = s.portEntries.length + 1 →
        ((al.portSet (portKey port)).Suffice s.portTable ∧
            PortsInv s' (m ++ [(portKey port, some s.portEntries.length)])) ∨
          (¬ (al.portSet (portKey port)).Suffice s.portTable ∧ PortsInv s' m) := by
  have hget : Assoc.get m (portKey port) = none := by
    rw [h.get_eq, hnone]
    rfl
  have hlen := h.length_lt hnone
  obtain ⟨r, hr, hnext, hcase⟩ := h.table.set_key (portKey port)
    (fun _ => Nat.lt_of_le_of_lt hlen (by decide)) (some s.portEntries.length)
    (al.portSet (portKey port)) false
  have hnext' : r.table.entryNextInsert ≤ 2 ^ 16 :=
    Nat.le_trans hnext (Nat.max_le.mpr ⟨h.next_le, hlen⟩)
  refine ⟨r, hr, fun s' htable hentries => hcase.imp ?_ ?_⟩
  · rintro ⟨hmap, hsuff⟩
    rw [Assoc.set_of_absent hget] at hmap
    have hnew : ∀ port', Assoc.get (m ++ [(portKey port, some s.portEntries.length)])
        (portKey port') = if port = port' then some (some s.portEntries.length)
          else Assoc.get m (portKey port') := by
      intro port'
      rw [← Assoc.set_of_absent hget, Assoc.get_set]
      simp only [portKey_beq_iff]
    -- The new entry has the next number, which no port has yet.
    have hold : ∀ port', Assoc.get m (portKey port') ≠ some (some s.portEntries.length) := by
      intro port' hp
      rw [h.get_eq, Option.map_eq_some_iff] at hp
      obtain ⟨entry, he, hee⟩ := hp
      have hlt := h.lt_length he
      rw [Option.some.inj hee] at hlt
      exact Nat.lt_irrefl _ hlt
    refine ⟨hsuff hget, ?_⟩
    constructor
    · exact htable ▸ hmap
    · exact htable ▸ hnext'
    · intro q hq
      rcases List.mem_append.mp hq with hq | hq
      · obtain ⟨port', entry, hqe, hlt⟩ := h.keys q hq
        exact ⟨port', entry, hqe, by omega⟩
      · exact ⟨port, _, List.mem_singleton.mp hq, by omega⟩
    · intro port₁ port₂ entry he₁ he₂
      rw [hnew] at he₁ he₂
      split at he₁ <;> split at he₂
      · rename_i hp₁ hp₂
        exact hp₁.symm.trans hp₂
      · exact absurd (he₁ ▸ he₂) (hold port₂)
      · exact absurd (he₂ ▸ he₁) (hold port₁)
      · exact h.inj port₁ port₂ entry he₁ he₂
  · rintro ⟨hns, hmap⟩
    exact ⟨hns, h.of_map (htable ▸ hmap) (htable ▸ hnext') (by omega)⟩

end PortsInv

/-! ### One id -/

/-- The allocations for a new port table entry itself. -/
def IdAlloc.Creates (al : IdAlloc) : Prop := al.portEntry = true ∧ al.hostTable.Succeed

instance (al : IdAlloc) : Decidable al.Creates := inferInstanceAs (Decidable (_ ∧ _))

/-- Setting a hostname only changes a table of hosts. -/
theorem setHostname_eq_some {al : IdAlloc} {vhost entry : ℕ} {hostname : StrKey}
    {s s' : ServerState} (h : setHostname al vhost hostname s entry = some s') :
    s'.portTable = s.portTable ∧ s'.portEntries.length = s.portEntries.length ∧
      s'.sockets = s.sockets ∧ s'.live = s.live := by
  rw [setHostname, Option.bind_eq_bind, Option.bind_eq_some_iff] at h
  obtain ⟨portEntry, -, h⟩ := h
  obtain ⟨r, -, h⟩ := Option.bind_eq_some_iff.mp h
  rw [← Option.some.inj h]
  exact ⟨rfl, List.length_set, rfl, rfl⟩

namespace PortsInv

variable {s : ServerState} {m : List (IntKey × Option ℕ)}

/-- A new port table entry has an empty table of hosts. -/
theorem createPortEntry (h : PortsInv s m) {port : UInt16} (hnone : s.entryOf port = none)
    (al : IdAlloc) :
    (¬ al.Creates ∧ Freehttpd.createPortEntry al port s = some none) ∨
    (al.Creates ∧ ∃ t s', htableCreate al.hostTable 16 = some (some t) ∧ t.mustGrow = false ∧
      Freehttpd.createPortEntry al port s = some (some (s.portEntries.length, s')) ∧
      s'.portEntries = s.portEntries ++ [{ hostConfigTable := t, sockfd := 0 }] ∧
      s'.sockets = s.sockets ∧
      s'.live = .hostTable s.portEntries.length :: .portEntry s.portEntries.length :: s.live ∧
      (((al.portSet (portKey port)).Suffice s.portTable ∧
          PortsInv s' (m ++ [(portKey port, some s.portEntries.length)])) ∨
        (¬ (al.portSet (portKey port)).Suffice s.portTable ∧ PortsInv s' m))) := by
  by_cases hmalloc : al.portEntry = true
  · rcases htableCreate_cases StrKey ℕ al.hostTable with ⟨hns, hcreate⟩ | ⟨hs, t, hcreate, hgrow⟩
    · refine .inl ⟨fun hc => hns hc.2, ?_⟩
      rw [Freehttpd.createPortEntry, if_pos hmalloc]
      simp only [hcreate, giveUp, List.mem_cons_self, if_true, Option.bind_eq_bind,
        Option.bind_some]
    · obtain ⟨r, hr, hinv⟩ := h.insert hnone al
      refine .inr ⟨⟨hmalloc, hs⟩, t,
        { s with
          portTable := r.table
          portEntries := s.portEntries ++ [{ hostConfigTable := t, sockfd := 0 }]
          live := .hostTable s.portEntries.length :: .portEntry s.portEntries.length :: s.live },
        hcreate, hgrow, ?_, rfl, rfl, rfl, hinv _ rfl (by simp)⟩
      rw [Freehttpd.createPortEntry, if_pos hmalloc]
      simp only [hcreate, hr, Option.bind_eq_bind, Option.bind_some]
  · refine .inl ⟨fun hc => hmalloc hc.1, ?_⟩
    rw [Freehttpd.createPortEntry, if_neg hmalloc]

/-- An id keeps the invariant of the port table, whatever becomes of the tables of
hosts.  It stops the loops when its port has no entry and gets none. -/
theorem processId (h : PortsInv s m) {al : IdAlloc} {vhost : ℕ} {id : FhConfigVhostId}
    {more : Bool} {s' : ServerState}
    (hrun : Freehttpd.processId al vhost id s = some (more, s')) :
    (more = false ∧ s' = s ∧ s.entryOf id.port = none ∧ ¬ al.Creates) ∨
    (more = true ∧ s'.sockets = s.sockets ∧ (∃ m', PortsInv s' m') ∧
      ((s.entryOf id.port ≠ none ∧ s'.live = s.live) ∨
        (al.Creates ∧ s'.live = .hostTable s.portEntries.length ::
          .portEntry s.portEntries.length :: s.live))) := by
  rw [Freehttpd.processId, h.htableGet_eq, Option.bind_eq_bind, Option.bind_some] at hrun
  cases he : s.entryOf id.port with
  | some entry =>
    rw [he] at hrun
    obtain ⟨s₁, hset, hrun⟩ := Option.bind_eq_some_iff.mp hrun
    obtain ⟨rfl, rfl⟩ := Prod.mk.inj (Option.some.inj hrun)
    obtain ⟨htable, hlen, hsockets, hlive⟩ := setHostname_eq_some hset
    exact .inr ⟨rfl, hsockets, ⟨m, h.congr htable hlen.ge⟩, .inl ⟨Option.some_ne_none _, hlive⟩⟩
  | none =>
    rw [he] at hrun
    rcases h.createPortEntry he al with
      ⟨hns, hcreate⟩ | ⟨hs, t, s₁, -, -, hcreate, -, hsockets₁, hlive₁, hinv⟩
    · simp only [hcreate, Option.bind_eq_bind, Option.bind_some] at hrun
      obtain ⟨rfl, rfl⟩ := Prod.mk.inj (Option.some.inj hrun)
      exact .inl ⟨rfl, rfl, rfl, hns⟩
    · simp only [hcreate, Option.bind_eq_bind, Option.bind_some] at hrun
      obtain ⟨s₂, hset, hrun⟩ := Option.bind_eq_some_iff.mp hrun
      obtain ⟨rfl, rfl⟩ := Prod.mk.inj (Option.some.inj hrun)
      obtain ⟨htable, hlen, hsockets, hlive⟩ := setHostname_eq_some hset
      refine .inr ⟨rfl, hsockets.trans hsockets₁, ?_, .inr ⟨hs, hlive.trans hlive₁⟩⟩
      rcases hinv with ⟨-, hinv⟩ | ⟨-, hinv⟩
      · exact ⟨_, hinv.congr htable hlen.ge⟩
      · exact ⟨_, hinv.congr htable hlen.ge⟩

/-- The loops stop at an id whose port has no entry and gets none. -/
theorem processId_stop (h : PortsInv s m) {al : IdAlloc} {vhost : ℕ} {id : FhConfigVhostId}
    (hnone : s.entryOf id.port = none) (hns : ¬ al.Creates) :
    Freehttpd.processId al vhost id s = some (false, s) := by
  rcases h.createPortEntry hnone al with ⟨-, hcreate⟩ | ⟨hs, -⟩
  · rw [Freehttpd.processId, h.htableGet_eq, hnone]
    simp only [Option.bind_eq_bind, Option.bind_some, hcreate]
  · exact absurd hs hns

/-- The loops, whatever happens: no resource is given up. -/
theorem processDeclarations {ds : List Declaration} {more : Bool} {s' : ServerState}
    (h : PortsInv s m) (hrun : Freehttpd.processDeclarations ds s = some (more, s')) :
    (∃ m', PortsInv s' m') ∧ ∀ x ∈ s.live, x ∈ s'.live := by
  induction ds generalizing s m with
  | nil =>
    obtain ⟨-, rfl⟩ := Prod.mk.inj (Option.some.inj hrun)
    exact ⟨⟨m, h⟩, fun x hx => hx⟩
  | cons d ds ih =>
    obtain ⟨⟨more₁, s₁⟩, hd, hrest⟩ := Option.bind_eq_some_iff.mp hrun
    rcases h.processId hd with ⟨rfl, rfl, -⟩ | ⟨rfl, -, ⟨m₁, h₁⟩, hlive⟩
    · obtain ⟨-, rfl⟩ := Prod.mk.inj (Option.some.inj hrest)
      exact ⟨⟨m, h⟩, fun x hx => hx⟩
    · obtain ⟨hm', hkept⟩ := ih h₁ hrest
      refine ⟨hm', fun x hx => hkept x ?_⟩
      rcases hlive with ⟨-, hlive⟩ | ⟨-, hlive⟩
      · rwa [hlive]
      · rw [hlive]
        exact List.mem_cons_of_mem _ (List.mem_cons_of_mem _ hx)

end PortsInv

end Freehttpd
