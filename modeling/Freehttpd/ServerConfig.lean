/-
What `fh_server_process_config` makes of a configuration if every call it makes
succeeds.

* `FhConfig.lastVhost` — the virtual host that gets a pair of hostname and port: the last
  one that declares it (`FhConfig.lastVhost_eq_some_iff`);
* `processDeclarations_succeed` — the loops over the configuration are a fold of
  `declare`, whose lookups are those of `lastVhost` (`get_declare_all`);
* `process_config_loaded_iff` — the configuration gets into the tables, and every port
  gets a socket, unless a port has `UINT32_MAX` different hostnames.
-/
import Freehttpd.ServerLoading

namespace Freehttpd

/-! ### The last virtual host -/

/-- The virtual host declares the pair. -/
def FhConfigVhost.Declares (vhost : FhConfigVhost) (port : UInt16) (hostname : StrKey) : Prop :=
  ∃ id ∈ vhost.idList, id.port = port ∧ (id.hostname == hostname) = true

instance (vhost : FhConfigVhost) (port : UInt16) (hostname : StrKey) :
    Decidable (vhost.Declares port hostname) :=
  inferInstanceAs (Decidable (∃ id ∈ vhost.idList, _))

/-- The last of the virtual hosts, from number `i` on, that declares the pair. -/
def lastDeclaring (port : UInt16) (hostname : StrKey) : List FhConfigVhost → ℕ → Option ℕ
  | [], _ => none
  | vhost :: vhosts, i => (lastDeclaring port hostname vhosts (i + 1)).or
      (if vhost.Declares port hostname then some i else none)

/-- The last virtual host of the configuration that declares the pair. -/
def FhConfig.lastVhost (config : FhConfig) (port : UInt16) (hostname : StrKey) : Option ℕ :=
  lastDeclaring port hostname config.vhosts 0

theorem lastDeclaring_eq_none_iff {port : UInt16} {hostname : StrKey}
    {vhosts : List FhConfigVhost} {i : ℕ} :
    lastDeclaring port hostname vhosts i = none ↔
      ∀ vhost ∈ vhosts, ¬ vhost.Declares port hostname := by
  induction vhosts generalizing i with
  | nil => simp [lastDeclaring]
  | cons vhost vhosts ih =>
    rw [lastDeclaring, Option.or_eq_none_iff, ih, List.forall_mem_cons, and_comm]
    refine and_congr ?_ Iff.rfl
    split <;> simp_all

theorem lastDeclaring_eq_some_iff {port : UInt16} {hostname : StrKey}
    {vhosts : List FhConfigVhost} {i k : ℕ} :
    lastDeclaring port hostname vhosts i = some k ↔
      ∃ n vhost, k = i + n ∧ vhosts[n]? = some vhost ∧ vhost.Declares port hostname ∧
        ∀ j vhost', n < j → vhosts[j]? = some vhost' → ¬ vhost'.Declares port hostname := by
  induction vhosts generalizing i with
  | nil => simp [lastDeclaring]
  | cons vhost vhosts ih =>
    rw [lastDeclaring, Option.or_eq_some_iff, ih, lastDeclaring_eq_none_iff]
    constructor
    · rintro (⟨n, v, rfl, hv, hdecl, hlast⟩ | ⟨hnone, hhead⟩)
      · -- It is among the virtual hosts behind the first one.
        refine ⟨n + 1, v, by omega, hv, hdecl, fun j v' hj hv' => ?_⟩
        obtain ⟨j, rfl⟩ : ∃ j', j = j' + 1 := ⟨j - 1, by omega⟩
        exact hlast j v' (by omega) hv'
      · split at hhead
        · rename_i hdecl
          refine ⟨0, vhost, (Option.some.inj hhead).symm, rfl, hdecl, fun j v' hj hv' => ?_⟩
          obtain ⟨j, rfl⟩ : ∃ j', j = j' + 1 := ⟨j - 1, by omega⟩
          exact hnone v' (List.mem_of_getElem? hv')
        · cases hhead
    · rintro ⟨n, v, rfl, hv, hdecl, hlast⟩
      cases n with
      | zero =>
        obtain rfl : vhost = v := Option.some.inj hv
        refine .inr ⟨fun v' hv' => ?_, by rw [if_pos hdecl, Nat.add_zero]⟩
        obtain ⟨j, hj⟩ := List.getElem?_of_mem hv'
        exact hlast (j + 1) v' (Nat.succ_pos j) hj
      | succ n =>
        exact .inl ⟨n, v, by omega, hv, hdecl, fun j v' hj hv' =>
          hlast (j + 1) v' (Nat.succ_lt_succ hj) hv'⟩

/-- The pair belongs to the last virtual host, in the order of the configuration, that
declares it. -/
theorem FhConfig.lastVhost_eq_some_iff {config : FhConfig} {port : UInt16} {hostname : StrKey}
    {k : ℕ} :
    config.lastVhost port hostname = some k ↔
      (∃ vhost, config.vhosts[k]? = some vhost ∧ vhost.Declares port hostname) ∧
        ∀ j vhost, k < j → config.vhosts[j]? = some vhost → ¬ vhost.Declares port hostname := by
  rw [lastVhost, lastDeclaring_eq_some_iff]
  constructor
  · rintro ⟨n, vhost, rfl, hvhost, hdecl, hlast⟩
    rw [Nat.zero_add]
    exact ⟨⟨vhost, hvhost, hdecl⟩, hlast⟩
  · rintro ⟨⟨vhost, hvhost, hdecl⟩, hlast⟩
    exact ⟨k, vhost, (Nat.zero_add k).symm, hvhost, hdecl, hlast⟩

theorem FhConfig.lastVhost_isSome_iff {config : FhConfig} {port : UInt16} {hostname : StrKey} :
    (config.lastVhost port hostname).isSome ↔
      ∃ id ∈ config.ids, id.port = port ∧ (id.hostname == hostname) = true := by
  rw [← Option.ne_none_iff_isSome, lastVhost, Ne, lastDeclaring_eq_none_iff]
  constructor
  · intro h
    by_contra hno
    refine h fun vhost hvhost => ?_
    rintro ⟨id, hid, hpair⟩
    exact hno ⟨id, List.mem_flatMap.mpr ⟨vhost, hvhost, hid⟩, hpair⟩
  · rintro ⟨id, hid, hpair⟩ h
    obtain ⟨vhost, hvhost, hid⟩ := List.mem_flatMap.mp hid
    exact h vhost hvhost ⟨id, hid, hpair⟩

/-! ### The loops -/

/-- The allocations for an id succeed. -/
def IdAlloc.Succeed (al : IdAlloc) : Prop :=
  al.Creates ∧ al.portCalloc = true ∧ al.portMalloc = true ∧ al.portShrink = true ∧
    al.hostCalloc = true ∧ al.hostMalloc = true ∧ al.hostDup.isSome ∧ al.hostShrink = true

/-- The last of the ids that declares the pair. -/
def lastDeclared (port : UInt16) (hostname : StrKey) : List Declaration → Option ℕ
  | [] => none
  | d :: ds => (lastDeclared port hostname ds).or
      (if d.id.port = port ∧ (d.id.hostname == hostname) = true then some d.vhost else none)

theorem lastDeclared_append (port : UInt16) (hostname : StrKey) (ds₁ ds₂ : List Declaration) :
    lastDeclared port hostname (ds₁ ++ ds₂)
      = (lastDeclared port hostname ds₂).or (lastDeclared port hostname ds₁) := by
  induction ds₁ with
  | nil => exact Option.or_none.symm
  | cons d ds₁ ih => rw [List.cons_append, lastDeclared, ih, lastDeclared, Option.or_assoc]

theorem lastDeclared_declareIds (port : UInt16) (hostname : StrKey) (al : ℕ → IdAlloc) (vhost : ℕ)
    (ids : List FhConfigVhostId) (j : ℕ) :
    lastDeclared port hostname (declareIds al vhost ids j)
      = if FhConfigVhost.Declares ⟨ids⟩ port hostname then some vhost else none := by
  induction ids generalizing j with
  | nil => simp [declareIds, lastDeclared, FhConfigVhost.Declares]
  | cons id ids ih =>
    have hcons : FhConfigVhost.Declares ⟨id :: ids⟩ port hostname ↔
        (id.port = port ∧ (id.hostname == hostname) = true) ∨
          FhConfigVhost.Declares ⟨ids⟩ port hostname := List.exists_mem_cons_iff ..
    rw [declareIds, lastDeclared, ih]
    by_cases hrest : FhConfigVhost.Declares ⟨ids⟩ port hostname
    · rw [if_pos hrest, if_pos (hcons.mpr (.inr hrest))]
      rfl
    · rw [if_neg hrest, Option.none_or]
      by_cases hid : id.port = port ∧ (id.hostname == hostname) = true
      · rw [if_pos hid, if_pos (hcons.mpr (.inl hid))]
      · rw [if_neg hid, if_neg fun h => (hcons.mp h).elim hid hrest]

theorem lastDeclared_declarations (config : FhConfig) (al : ℕ → ℕ → IdAlloc) (port : UInt16)
    (hostname : StrKey) :
    lastDeclared port hostname (config.declarations al) = config.lastVhost port hostname := by
  have hvhosts : ∀ vhosts i, lastDeclared port hostname (declareVhosts al vhosts i)
      = lastDeclaring port hostname vhosts i := by
    intro vhosts
    induction vhosts with
    | nil => exact fun _ => rfl
    | cons vhost vhosts ih =>
      intro i
      rw [declareVhosts, lastDeclared_append, ih, lastDeclared_declareIds, lastDeclaring]
  exact hvhosts config.vhosts 0

/-- What the tables hold after a list of ids. -/
theorem get_declare_all (port : UInt16) (hostname : StrKey) (ds : List Declaration)
    (hosts : Hosts) :
    Assoc.get (ds.foldl declare hosts port) hostname
      = ((lastDeclared port hostname ds).map some).or (Assoc.get (hosts port) hostname) := by
  induction ds generalizing hosts with
  | nil => exact Option.none_or.symm
  | cons d ds ih =>
    rw [List.foldl_cons, ih, lastDeclared, Option.map_or, Option.or_assoc]
    congr 1
    by_cases hport : port = d.id.port
    · subst hport
      rw [declare, Function.update_self, Assoc.get_set]
      by_cases hname : (d.id.hostname == hostname) = true
      · rw [if_pos hname, if_pos ⟨rfl, hname⟩]
        rfl
      · rw [if_neg hname, if_neg fun hd => hname hd.2]
        rfl
    · rw [declare, Function.update_of_ne hport, if_neg fun hd => hport hd.1.symm]
      rfl

theorem FhConfig.exists_declaration {config : FhConfig} {al : ℕ → ℕ → IdAlloc} {port : UInt16} :
    (∃ d ∈ config.declarations al, d.id.port = port) ↔ ∃ id ∈ config.ids, id.port = port := by
  rw [← config.declarations_ids al]
  simp only [List.mem_map, exists_exists_and_eq_and]

/-- The allocations of the declarations are those that were given. -/
theorem FhConfig.al_succeed {config : FhConfig} {al : ℕ → ℕ → IdAlloc}
    (hal : ∀ i j, (al i j).Succeed) {d : Declaration} (hd : d ∈ config.declarations al) :
    d.al.Succeed := by
  have hids : ∀ (al : ℕ → IdAlloc), (∀ j, (al j).Succeed) → ∀ vhost ids j,
      ∀ d ∈ declareIds al vhost ids j, d.al.Succeed := by
    intro al hal vhost ids
    induction ids with
    | nil =>
      intro j d hd
      cases hd
    | cons id ids ih =>
      intro j d hd
      rcases List.mem_cons.mp hd with rfl | hd
      · exact hal j
      · exact ih (j + 1) d hd
  have hvhosts : ∀ vhosts i, ∀ d ∈ declareVhosts al vhosts i, d.al.Succeed := by
    intro vhosts
    induction vhosts with
    | nil =>
      intro i d hd
      cases hd
    | cons vhost vhosts ih =>
      intro i d hd
      rcases List.mem_append.mp hd with hd | hd
      · exact hids (al i) (hal i) i vhost.idList 0 d hd
      · exact ih (i + 1) d hd
  exact hvhosts config.vhosts 0 d hd

/-- Allocations that succeed are enough. -/
theorem HostsInv.effective {config : FhConfig} {s : ServerState} {hosts : Hosts}
    (h : HostsInv config s hosts) {d : Declaration} (hal : d.al.Succeed) : d.Effective s := by
  obtain ⟨-, hportCalloc, hportMalloc, -, hhostCalloc, hhostMalloc, hdup, -⟩ := hal
  rw [Declaration.Effective]
  cases he : s.entryOf d.id.port with
  | none => exact ⟨⟨fun _ => ⟨hportCalloc, hportMalloc⟩, rfl⟩, hdup⟩
  | some entry =>
    obtain ⟨pe, hpe, -⟩ := h.used d.id.port entry he
    refine ⟨pe, hpe, fun _ => ⟨hhostCalloc, hhostMalloc⟩, ?_⟩
    rwa [IdAlloc.hostSet, strSetAlloc, Option.isSome_map]

/-- The loops, if every allocation succeeds. -/
theorem processDeclarations_succeed {config : FhConfig}
    (hlimit : ∀ port, (config.hostnames port).length < uint32Max) {ds : List Declaration}
    (hids : ∀ d ∈ ds, d.id ∈ config.ids) (hal : ∀ d ∈ ds, d.al.Succeed) {s : ServerState}
    {m : List (IntKey × Option ℕ)} {hosts : Hosts} (hp : PortsInv s m)
    (hh : HostsInv config s hosts) :
    ∃ s' m', processDeclarations ds s = some (true, s') ∧ PortsInv s' m' ∧
      HostsInv config s' (ds.foldl declare hosts) ∧ s'.sockets = s.sockets ∧
      ∀ port, (s'.entryOf port).isSome ↔ (s.entryOf port).isSome ∨ ∃ d ∈ ds, d.id.port = port := by
  induction ds generalizing s m hosts with
  | nil =>
    refine ⟨s, m, rfl, hp, hh, rfl, fun port => ?_⟩
    simp
  | cons d ds ih =>
    have hd := hal d List.mem_cons_self
    rcases hh.processId hp (hids d List.mem_cons_self) (hlimit _) with ⟨-, hns⟩ |
      ⟨s₁, m₁, hosts₁, hrun, hp₁, hh₁, hentry, hsome, hcase⟩
    · exact absurd hd.1 hns
    · -- The id is effective, so it does what `declare` says.
      have heff := hh.effective hd
      obtain ⟨s', m', hrest, hp', hh', hsockets', hports⟩ :=
        ih (fun d hd => hids d (List.mem_cons_of_mem _ hd))
          (fun d hd => hal d (List.mem_cons_of_mem _ hd)) hp₁ hh₁
      obtain rfl : hosts₁ = declare hosts d := by
        rcases hcase with ⟨heq, -⟩ | ⟨-, hneff⟩
        · exact heq
        · exact absurd heff hneff
      have hsockets : s₁.sockets = s.sockets := by
        rcases hp.processId hrun with ⟨hf, -⟩ | ⟨-, hsame, -⟩
        · cases hf
        · exact hsame
      refine ⟨s', m', ?_, hp', hh', hsockets'.trans hsockets, fun port => ?_⟩
      · rw [processDeclarations, hrun]
        exact hrest
      · have hone : (s₁.entryOf port).isSome ↔ (s.entryOf port).isSome ∨ d.id.port = port := by
          by_cases hport : port = d.id.port
          · subst hport
            exact iff_of_true (hsome heff) (.inr rfl)
          · rw [(hentry port).resolve_right hport]
            exact ⟨.inl, fun h => h.resolve_right fun he => hport he.symm⟩
        rw [hports, hone, List.exists_mem_cons_iff, or_assoc]

/-! ### The sockets -/

theorem portKey_toUInt16 (port : UInt16) : (portKey port).key.toUInt16 = port :=
  UInt16.toUInt16_toUInt64 port

/-- The entries of the port table are those of different ports. -/
theorem nodup_of_contents {s : ServerState} {m l : List (IntKey × Option ℕ)} (hp : PortsInv s m)
    (hdist : Assoc.Distinct l)
    (hl : ∀ q, q ∈ l ↔ ∃ port entry, q = (portKey port, some entry) ∧
      s.entryOf port = some entry) :
    (l.map Prod.snd).Nodup ∧ (l.map fun q => q.1.key.toUInt16).Nodup := by
  constructor
  · refine List.pairwise_map.mpr (hdist.imp_of_mem fun {q q'} hq hq' hne heq => ?_)
    obtain ⟨port, entry, rfl, he⟩ := (hl q).mp hq
    obtain ⟨port', entry', rfl, he'⟩ := (hl q').mp hq'
    obtain rfl : entry = entry' := Option.some.inj heq
    rw [hp.entryOf_inj he he', beq_self_eq_true] at hne
    cases hne
  · refine List.pairwise_map.mpr (hdist.imp_of_mem fun {q q'} hq hq' hne heq => ?_)
    obtain ⟨port, entry, rfl, -⟩ := (hl q).mp hq
    obtain ⟨port', entry', rfl, -⟩ := (hl q').mp hq'
    dsimp only at hne heq
    rw [portKey_toUInt16, portKey_toUInt16] at heq
    rw [heq, beq_self_eq_true] at hne
    cases hne

/-! ### The whole configuration -/

/-- Every call succeeds. -/
def ServerEnv.Succeed (env : ServerEnv) : Prop :=
  (∀ i j, (env.id i j).Succeed) ∧ ∀ n, (env.socket n).Succeed

/-- Some id of the configuration has the port. -/
def FhConfig.Uses (config : FhConfig) (port : UInt16) : Prop := ∃ id ∈ config.ids, id.port = port

instance (config : FhConfig) (port : UInt16) : Decidable (config.Uses port) :=
  inferInstanceAs (Decidable (∃ id ∈ config.ids, _))

/-- The server has a port table entry for exactly the ports that are used, with one socket
each; its table of hosts maps each hostname to the last virtual host that declares the
pair, and has no other hostnames. -/
structure FhConfig.Loaded (config : FhConfig) (s : ServerState) : Prop where
  ports : ∀ port, htableHas s.portTable (portKey port) = some (decide (config.Uses port))
  hosts : ∀ port, config.Uses port → ∃ entry pe,
    htableGet s.portTable (portKey port) = some (some entry) ∧ s.portEntries[entry]? = some pe ∧
    (∀ hostname, htableGetWithFlag pe.hostConfigTable hostname
      = some (config.lastVhost port hostname, (config.lastVhost port hostname).isSome)) ∧
    (pe.sockfd, port) ∈ s.sockets
  sockets : ∀ port, (s.sockets.map Prod.snd).count port = if config.Uses port then 1 else 0

theorem FhConfig.Loaded.maps {config : FhConfig} {s : ServerState} (h : config.Loaded s)
    {id : FhConfigVhostId} (hid : id ∈ config.ids) : s.Maps id.port id.hostname := by
  obtain ⟨entry, pe, hget, hpe, hhosts, -⟩ := h.hosts id.port ⟨id, hid, rfl⟩
  refine ⟨entry, pe, ?_, hpe, ?_⟩
  · rw [ServerState.entryOf, hget]
    rfl
  · have hsome : (config.lastVhost id.port id.hostname).isSome :=
      FhConfig.lastVhost_isSome_iff.mpr ⟨id, hid, rfl, BEq.rfl⟩
    rw [htableHas, hhosts, hsome]
    rfl

/-- The loop over the port table, behind loops that have filled the tables. -/
theorem loaded_of_tables {config : FhConfig} {s₁ : ServerState} {m : List (IntKey × Option ℕ)}
    {hosts : Hosts} {calls : ℕ → SocketCalls} (hp : PortsInv s₁ m) (hh : HostsInv config s₁ hosts)
    (hget : ∀ port hostname,
      Assoc.get (hosts port) hostname = (config.lastVhost port hostname).map some)
    (huses : ∀ port, (s₁.entryOf port).isSome ↔ config.Uses port) (hnone : s₁.sockets = [])
    (hcalls : ∀ n, (calls n).Succeed) :
    ∃ s entries k, htableContents s₁.portTable = some entries ∧
      createSockets calls entries 0 s₁ noSockets = some ((true, s), k) ∧ config.Loaded s := by
  obtain ⟨l, hcontents, -, hdist, hl⟩ := hp.contents
  obtain ⟨hentries, hports⟩ := nodup_of_contents hp hdist hl
  obtain ⟨s, k, hrun, hsockets, -, -, hstored⟩ := createSockets_succeed (n := 0) hcalls
    (fun q hq => by
      obtain ⟨port, entry, rfl, he⟩ := (hl q).mp hq
      exact ⟨entry, rfl, hp.lt_length he⟩) hentries noSockets
  obtain ⟨htable, hhosts, -⟩ := createSockets_eq_some hrun
  refine ⟨s, l, k, hcontents, hrun, ?_⟩
  constructor
  · intro port
    rw [htable, hp.htableHas_eq, Option.some_inj, Bool.eq_iff_iff, huses, decide_eq_true_iff]
  · intro port hport
    obtain ⟨entry, he⟩ := Option.isSome_iff_exists.mp ((huses port).mpr hport)
    obtain ⟨pe₁, hpe₁, hmap⟩ := hh.used port entry he
    obtain ⟨pe, hpe, hsocket⟩ :=
      hstored (portKey port, some entry) ((hl _).mpr ⟨port, entry, rfl, he⟩) entry rfl
    -- The table of hosts is the one from before.
    have htab : pe.hostConfigTable = pe₁.hostConfigTable := by
      have heq := congrArg (fun tables => tables[entry]?) hhosts
      simp only [ServerState.hostTables, List.getElem?_map, hpe, hpe₁, Option.map_some] at heq
      exact Option.some.inj heq
    refine ⟨entry, pe, ?_, hpe, fun hostname => ?_, ?_⟩
    · rw [htable, hp.htableGet_eq, he]
    · rw [htab, hmap.getWithFlag_eq, hget]
      cases config.lastVhost port hostname with
      | none => rfl
      | some vhost => rfl
    · rwa [portKey_toUInt16] at hsocket
  · intro port
    rw [hsockets, hnone, List.map_nil, List.nil_append, hports.count]
    refine if_congr ?_ rfl rfl
    rw [← huses, List.mem_map, Option.isSome_iff_exists]
    constructor
    · rintro ⟨q, hq, rfl⟩
      obtain ⟨port, entry, rfl, he⟩ := (hl q).mp hq
      refine ⟨entry, ?_⟩
      show s₁.entryOf (portKey port).key.toUInt16 = some entry
      rw [portKey_toUInt16, he]
    · rintro ⟨entry, he⟩
      exact ⟨(portKey port, some entry), (hl _).mpr ⟨port, entry, rfl, he⟩, portKey_toUInt16 port⟩

/-- If every call succeeds, the configuration is loaded, if and only if no port has
`UINT32_MAX` different hostnames. -/
theorem process_config_loaded_iff {env : ServerEnv} {config : FhConfig} {s₀ : ServerState}
    (hfresh : s₀.Fresh) (hsucceed : env.Succeed) :
    (∃ s, fhServerProcessConfig env config s₀ = some (true, s) ∧ config.Loaded s) ↔
      ∀ port, (config.hostnames port).length < uint32Max := by
  constructor
  · rintro ⟨s, hrun, hloaded⟩
    exact hostnames_lt_of_config hfresh hrun fun id hid => hloaded.maps hid
  · intro hlimit
    obtain ⟨s₁, m, hloops, hp, hh, hsockets, hports⟩ := processDeclarations_succeed hlimit
      (fun d hd => FhConfig.id_mem hd) (fun d hd => FhConfig.al_succeed hsucceed.1 hd)
      hfresh.ports (hfresh.hosts config)
    have hget : ∀ port hostname, Assoc.get ((config.declarations env.id).foldl declare
        (fun _ => []) port) hostname = (config.lastVhost port hostname).map some := by
      intro port hostname
      rw [get_declare_all, lastDeclared_declarations]
      exact Option.or_none
    have huses : ∀ port, (s₁.entryOf port).isSome ↔ config.Uses port := by
      intro port
      rw [hports, hfresh.entryOf_eq, FhConfig.exists_declaration]
      exact ⟨fun h => h.resolve_left Bool.false_ne_true, .inr⟩
    obtain ⟨s, entries, k, hentries, hrun, hloaded⟩ :=
      loaded_of_tables hp hh hget huses (hsockets.trans hfresh.sockets) hsucceed.2
    refine ⟨s, ?_, hloaded⟩
    simp only [fhServerProcessConfig_eq, hloops, hentries, Option.bind_some, if_true, hrun,
      Option.map_some]

theorem ServerEnv.ok_succeed : ServerEnv.ok.Succeed := by
  constructor
  · intro i j
    show IdAlloc.ok.Succeed
    simp [IdAlloc.Succeed, IdAlloc.Creates, CreateAlloc.Succeed, IdAlloc.ok]
  · intro n
    simp [SocketCalls.Succeed, ServerEnv.ok]

/-- Two virtual hosts on two ports, with one pair in common. -/
theorem process_config_loaded_twoHosts : ∃ s₀, s₀.Fresh ∧
    ((∃ s, fhServerProcessConfig ServerEnv.ok twoHosts s₀ = some (true, s) ∧ twoHosts.Loaded s) ↔
      ∀ port, (twoHosts.hostnames port).length < uint32Max) := by
  obtain ⟨t, hcreate⟩ : ∃ t : Htable IntKey ℕ,
      htableCreate ⟨true, true, true⟩ 16 = some (some t) := ⟨_, rfl⟩
  have hfresh : ServerState.Fresh ⟨t, [], [], [.portTable, .server]⟩ := ⟨⟨_, hcreate⟩, rfl, rfl⟩
  exact ⟨_, hfresh, process_config_loaded_iff hfresh ServerEnv.ok_succeed⟩

/-- One virtual host with `n` different hostnames on port 80. -/
def crowded (n : ℕ) : FhConfig := ⟨[⟨(List.range n).map fun k => ⟨numberedKey k, 80⟩⟩]⟩

theorem length_hostnames_crowded {n : ℕ} (hn : n ≤ 128 ^ 5) :
    ((crowded n).hostnames 80).length = n := by
  have hids : (crowded n).ids = (List.range n).map fun k => ⟨numberedKey k, 80⟩ := by
    simp [FhConfig.ids, crowded]
  have hall : ∀ id ∈ (crowded n).ids, decide (id.port = 80) = true := by
    intro id hid
    rw [hids] at hid
    obtain ⟨k, -, rfl⟩ := List.mem_map.mp hid
    exact decide_eq_true rfl
  have hnodup : ((List.range n).map fun k => (numberedKey k).chars).Nodup := by
    refine List.Nodup.map_on (fun k hk k' hk' heq => ?_) List.nodup_range
    have hmod := numberedKey_beq (StrKey.beq_iff.mpr heq)
    rwa [Nat.mod_eq_of_lt (Nat.lt_of_lt_of_le (List.mem_range.mp hk) hn),
      Nat.mod_eq_of_lt (Nat.lt_of_lt_of_le (List.mem_range.mp hk') hn)] at hmod
  rw [FhConfig.hostnames, List.filter_eq_self.mpr hall, hids, List.map_map]
  show (((List.range n).map fun k => (numberedKey k).chars).dedup).length = n
  rw [hnodup.dedup, List.length_map, List.length_range]

/-- `UINT32_MAX` different hostnames on one port do not fit, although every call succeeds. -/
theorem process_config_not_loaded : ∃ s₀, s₀.Fresh ∧ ServerEnv.ok.Succeed ∧
    ¬ ∃ s, fhServerProcessConfig ServerEnv.ok (crowded uint32Max) s₀ = some (true, s) ∧
      (crowded uint32Max).Loaded s := by
  obtain ⟨t, hcreate⟩ : ∃ t : Htable IntKey ℕ,
      htableCreate ⟨true, true, true⟩ 16 = some (some t) := ⟨_, rfl⟩
  have hfresh : ServerState.Fresh ⟨t, [], [], [.portTable, .server]⟩ := ⟨⟨_, hcreate⟩, rfl, rfl⟩
  refine ⟨_, hfresh, ServerEnv.ok_succeed, ?_⟩
  rintro ⟨s, hrun, hloaded⟩
  have hlt := hostnames_lt_of_config hfresh hrun (fun id hid => hloaded.maps hid) 80
  rw [length_hostnames_crowded (by decide)] at hlt
  exact Nat.lt_irrefl _ hlt

end Freehttpd
