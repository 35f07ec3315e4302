/-
The request records of the io_uring backend.

`DataPool.Wf p free requests taken` says that every allocated record is in exactly
one place: on the free list, which is the doubly linked list of `free`, or filled in
for a request of `requests`, or in the hands of the code (`taken`).

* `Wf.get`, `Wf.disown` — `fh_xio_data_get` and `fh_xio_data_disown`;
* `Wf.fill`, `Wf.retire` — a record is filled in for a request, and its request is
  over;
* `Wf.requestWith` — the request functions.
-/
import Freehttpd.Links
import Freehttpd.XioUring

namespace Freehttpd.Uring

variable {U : Type}

/-- `data->next`. -/
def dataNext (p : DataPool U) (data : Option ℕ) : Option (Option ℕ) :=
  data.bind fun a => (p.heap a).map XioData.next

/-- `data->prev`. -/
def dataPrev (p : DataPool U) (data : Option ℕ) : Option (Option ℕ) :=
  data.bind fun a => (p.heap a).map XioData.prev

/-- Every record is in one place. -/
structure DataPool.Wf (p : DataPool U) (free : List ℕ) (requests : ℕ → Option (XioRequest U))
    (taken : Option ℕ) : Prop where
  list : DList (dataNext p) (dataPrev p) none p.dataHead p.dataTail (free.map some)
  count_eq : p.dataCount = free.length
  count_le : free.length ≤ xioMaxDataFreelistCount
  request : ∀ a r, requests a = some r → a ∉ free ∧ ∃ d, p.heap a = some d ∧ d.request = some r
  taken_eq : ∀ a, taken = some a → a ∉ free ∧ requests a = none ∧ ∃ d, p.heap a = some d
  live : ∀ a d, p.heap a = some d → a ∈ free ∨ (∃ r, requests a = some r) ∨ taken = some a

theorem DataPool.modify_eq {p : DataPool U} {a : ℕ} {d : XioData U} (h : p.heap a = some d)
    (f : XioData U → XioData U) :
    p.modify a f = some { p with heap := Function.update p.heap a (some (f d)) } := by
  rw [DataPool.modify, h, Option.map_some]

/-- The same, of a pool given by its fields. -/
theorem DataPool.modify_mk {head tail : Option ℕ} {n : ℕ} {heap : ℕ → Option (XioData U)}
    {a : ℕ} {d : XioData U} (h : heap a = some d) (f : XioData U → XioData U) :
    DataPool.modify ⟨head, tail, n, heap⟩ a f
      = some ⟨head, tail, n, Function.update heap a (some (f d))⟩ :=
  DataPool.modify_eq h f

theorem DataPool.free_eq {p : DataPool U} {a : ℕ} {d : XioData U} (h : p.heap a = some d) :
    p.free a = some { p with heap := Function.update p.heap a none } := by
  rw [DataPool.free, h, Option.map_some]

/-- Links are read off the memory. -/
theorem dataNext_eq {p : DataPool U} {a : ℕ} {d : XioData U} (h : p.heap a = some d) :
    dataNext p (some a) = some d.next := by
  rw [dataNext, Option.bind_some, h, Option.map_some]

theorem dataPrev_eq {p : DataPool U} {a : ℕ} {d : XioData U} (h : p.heap a = some d) :
    dataPrev p (some a) = some d.prev := by
  rw [dataPrev, Option.bind_some, h, Option.map_some]

theorem dataNext_congr {p p' : DataPool U} {a : ℕ} (h : p'.heap a = p.heap a) :
    dataNext p' (some a) = dataNext p (some a) := by
  rw [dataNext, dataNext, Option.bind_some, Option.bind_some, h]

theorem dataPrev_congr {p p' : DataPool U} {a : ℕ} (h : p'.heap a = p.heap a) :
    dataPrev p' (some a) = dataPrev p (some a) := by
  rw [dataPrev, dataPrev, Option.bind_some, Option.bind_some, h]

theorem mem_of_getLastD_map_some {l : List ℕ} {t : ℕ} (h : (l.map some).getLastD none = some t) :
    t ∈ l := by
  have hne : l.map some ≠ [] := fun he => by
    rw [he] at h
    cases h
  have hmem := List.getLastD_mem_of_ne_nil hne none
  rw [h] at hmem
  obtain ⟨b, hb, hbt⟩ := List.mem_map.mp hmem
  rwa [← Option.some.inj hbt]

namespace DataPool.Wf

variable {p : DataPool U} {free : List ℕ} {requests : ℕ → Option (XioRequest U)}
  {taken : Option ℕ}

/-- A listed record is allocated. -/
theorem exists_of_mem (h : p.Wf free requests taken) {a : ℕ} (ha : a ∈ free) :
    ∃ d, p.heap a = some d := by
  obtain ⟨l₁, l₂, hl⟩ := List.append_of_mem (List.mem_map_of_mem (f := some) ha)
  have hlinks := (hl ▸ h.list).isSome_links.1
  rw [dataNext, Option.bind_some, Option.map_eq_some_iff] at hlinks
  obtain ⟨d, hd, -⟩ := hlinks
  exact ⟨d, hd⟩

theorem nodup (h : p.Wf free requests taken) : free.Nodup :=
  h.list.nodup.of_map some

theorem tail_mem (h : p.Wf free requests taken) {t : ℕ} (ht : p.dataTail = some t) : t ∈ free :=
  mem_of_getLastD_map_some (h.list.tail_eq.symm.trans ht)

/-- The last record of the list, and the one before it. -/
theorem last {a : ℕ} {l : List ℕ} (h : p.Wf (l ++ [a]) requests taken) :
    a ∉ l ∧ p.dataTail = some a ∧
      ∃ d, p.heap a = some d ∧ d.prev = (l.map some).getLastD none := by
  obtain ⟨d, hd⟩ := h.exists_of_mem (a := a) (by simp)
  have hlist := h.list
  rw [List.map_append, List.map_singleton] at hlist
  have hprev := hlist.isSome_links.2
  rw [dataPrev_eq hd] at hprev
  refine ⟨fun ha => (List.nodup_append.mp h.nodup).2.2 a ha a (by simp) rfl, ?_,
    d, hd, Option.some.inj hprev⟩
  rw [hlist.tail_eq, List.getLastD_concat]

/-- The list only depends on the memory of its records. -/
theorem list_congr (h : p.Wf free requests taken) {p' : DataPool U}
    (hhead : p'.dataHead = p.dataHead) (htail : p'.dataTail = p.dataTail)
    (hheap : ∀ a ∈ free, p'.heap a = p.heap a) :
    DList (dataNext p') (dataPrev p') none p'.dataHead p'.dataTail (free.map some) := by
  rw [hhead, htail]
  refine h.list.congr (fun i hi => ?_) fun i hi => ?_
  · obtain ⟨a, ha, rfl⟩ := List.mem_map.mp hi
    exact dataNext_congr (hheap a ha)
  · obtain ⟨a, ha, rfl⟩ := List.mem_map.mp hi
    exact dataPrev_congr (hheap a ha)

/-- No record is allocated by `fh_xio_create`. -/
theorem empty : (⟨none, none, 0, fun _ => none⟩ : DataPool U).Wf [] (fun _ => none) none where
  list := DList.empty _ _ _
  count_eq := rfl
  count_le := Nat.zero_le _
  request := by simp
  taken_eq := by simp
  live := by simp

/-- `malloc` gives a record to the code. -/
theorem alloc (h : p.Wf [] requests none) {a : ℕ} (ha : p.heap a = none) :
    ({ p with heap := Function.update p.heap a (some ⟨none, none, none⟩) } : DataPool U).Wf
      [] requests (some a) where
  list := h.list_congr rfl rfl (by simp)
  count_eq := h.count_eq
  count_le := h.count_le
  request b r hb := by
    obtain ⟨hfree, d, hd, hr⟩ := h.request b r hb
    have hne : b ≠ a := by
      rintro rfl
      rw [ha] at hd
      cases hd
    exact ⟨hfree, d, by dsimp only; rw [Function.update_of_ne hne, hd], hr⟩
  taken_eq b hb := by
    obtain rfl := Option.some.inj hb
    refine ⟨List.not_mem_nil, ?_, _, Function.update_self _ _ _⟩
    by_contra hne
    obtain ⟨r, hr⟩ := Option.ne_none_iff_exists'.mp hne
    obtain ⟨-, d, hd, -⟩ := h.request a r hr
    rw [ha] at hd
    cases hd
  live b d hb := by
    dsimp only at hb
    rcases eq_or_ne b a with rfl | hne
    · exact .inr (.inr rfl)
    · rw [Function.update_of_ne hne] at hb
      rcases h.live b d hb with hmem | hreq | htaken
      · exact .inl hmem
      · exact .inr (.inl hreq)
      · cases htaken

/-- The record is filled in for a request. -/
theorem fill {a : ℕ} (h : p.Wf free requests (some a)) (r : XioRequest U) :
    ∃ p', (p.modify a fun d => { d with request := some r }) = some p' ∧
      p'.Wf free (Function.update requests a (some r)) none := by
  obtain ⟨hfree, hnone, d, hd⟩ := h.taken_eq a rfl
  refine ⟨_, DataPool.modify_eq hd _, ?_⟩
  have hheap : ∀ b, b ≠ a → Function.update p.heap a (some { d with request := some r }) b
      = p.heap b := fun b hb => Function.update_of_ne hb _ _
  exact
    { list := h.list_congr rfl rfl fun b hb => hheap b fun he => hfree (he ▸ hb)
      count_eq := h.count_eq
      count_le := h.count_le
      request := fun b r' hb => by
        rcases eq_or_ne b a with rfl | hne
        · rw [Function.update_self, Option.some_inj] at hb
          exact ⟨hfree, _, Function.update_self _ _ _, by rw [← hb]⟩
        · rw [Function.update_of_ne hne] at hb
          obtain ⟨hb', d', hd', hr'⟩ := h.request b r' hb
          exact ⟨hb', d', by dsimp only; rw [hheap b hne, hd'], hr'⟩
      taken_eq := by simp
      live := fun b d' hb => by
        rcases eq_or_ne b a with rfl | hne
        · exact .inr (.inl ⟨r, Function.update_self _ _ _⟩)
        · dsimp only at hb
          rw [hheap b hne] at hb
          rw [Function.update_of_ne hne]
          rcases h.live b d' hb with hmem | hreq | htaken
          · exact .inl hmem
          · exact .inr (.inl hreq)
          · exact absurd (Option.some.inj htaken).symm hne }

/-- A request is over: its record is in the hands of the code. -/
theorem retire (h : p.Wf free requests none) {a : ℕ} {r : XioRequest U}
    (ha : requests a = some r) : p.Wf free (Function.update requests a none) (some a) where
  list := h.list
  count_eq := h.count_eq
  count_le := h.count_le
  request b r' hb := by
    rcases eq_or_ne b a with rfl | hne
    · rw [Function.update_self] at hb
      cases hb
    · rw [Function.update_of_ne hne] at hb
      exact h.request b r' hb
  taken_eq b hb := by
    obtain rfl := Option.some.inj hb
    obtain ⟨hfree, d, hd, -⟩ := h.request a r ha
    exact ⟨hfree, Function.update_self _ _ _, d, hd⟩
  live b d hb := by
    rcases eq_or_ne b a with rfl | hne
    · exact .inr (.inr rfl)
    · rw [Function.update_of_ne hne]
      rcases h.live b d hb with hmem | hreq | htaken
      · exact .inl hmem
      · exact .inr (.inl hreq)
      · cases htaken

/-- The record in the hands of the code is freed. -/
theorem release {a : ℕ} (h : p.Wf free requests (some a)) :
    ∃ p', p.free a = some p' ∧ p'.Wf free requests none := by
  obtain ⟨hfree, hnone, d, hd⟩ := h.taken_eq a rfl
  refine ⟨_, DataPool.free_eq hd, ?_⟩
  have hheap : ∀ b, b ≠ a → Function.update p.heap a none b = p.heap b :=
    fun b hb => Function.update_of_ne hb _ _
  exact
    { list := h.list_congr rfl rfl fun b hb => hheap b fun he => hfree (he ▸ hb)
      count_eq := h.count_eq
      count_le := h.count_le
      request := fun b r hb => by
        obtain ⟨hb', d', hd', hr'⟩ := h.request b r hb
        have hne : b ≠ a := by
          rintro rfl
          rw [hnone] at hb
          cases hb
        exact ⟨hb', d', by dsimp only; rw [hheap b hne, hd'], hr'⟩
      taken_eq := by simp
      live := fun b d' hb => by
        dsimp only at hb
        rcases eq_or_ne b a with rfl | hne
        · rw [Function.update_self] at hb
          cases hb
        · rw [hheap b hne] at hb
          rcases h.live b d' hb with hmem | hreq | htaken
          · exact .inl hmem
          · exact .inr (.inl hreq)
          · exact absurd (Option.some.inj htaken).symm hne }

/-- Linking a record behind the tail of the free list. -/
theorem push {a : ℕ} (h : p.Wf free requests (some a))
    (hlt : free.length < xioMaxDataFreelistCount) {p' : DataPool U} {d : XioData U}
    (hhead : p'.dataHead = if p.dataTail = none then some a else p.dataHead)
    (htail : p'.dataTail = some a) (hcount : p'.dataCount = p.dataCount + 1)
    (hself : p'.heap a = some { d with next := none, prev := p.dataTail })
    (hlast : ∀ t dt, p.dataTail = some t → p.heap t = some dt →
      p'.heap t = some { dt with next := some a })
    (hother : ∀ b, b ≠ a → p.dataTail ≠ some b → p'.heap b = p.heap b) :
    p'.Wf (free ++ [a]) requests none := by
  obtain ⟨hfree, hnone, -⟩ := h.taken_eq a rfl
  -- A record other than `a` keeps everything but perhaps its `next`.
  have hkept : ∀ b, b ≠ a → ∀ d, p.heap b = some d →
      ∃ d', p'.heap b = some d' ∧ d'.prev = d.prev ∧ d'.request = d.request := by
    intro b hb d hd
    by_cases ht : p.dataTail = some b
    · exact ⟨_, hlast b d ht hd, rfl, rfl⟩
    · exact ⟨d, (hother b hb ht).trans hd, rfl, rfl⟩
  have hne_of_mem : ∀ b ∈ free, b ≠ a := fun b hb he => hfree (he ▸ hb)
  refine
    { list := ?_
      count_eq := by rw [hcount, h.count_eq, List.length_append, List.length_singleton]
      count_le := by rw [List.length_append, List.length_singleton]; exact hlt
      request := fun b r hb => ?_
      taken_eq := by simp
      live := fun b d hb => ?_ }
  · rw [hhead, htail, List.map_append, List.map_singleton]
    refine h.list.pushBack (Option.some_ne_none a) ?_ ?_ ?_ ?_ (dataNext_eq hself)
      (dataPrev_eq hself)
    · simpa using hfree
    · intro i hi hne
      obtain ⟨b, hb, rfl⟩ := List.mem_map.mp hi
      exact dataNext_congr (hother b (hne_of_mem b hb) fun he => hne he.symm)
    · intro hne
      obtain ⟨t, ht, htt⟩ := List.mem_map.mp (h.list.tail_mem hne)
      obtain ⟨dt, hdt⟩ := h.exists_of_mem ht
      rw [← htt]
      exact dataNext_eq (hlast t dt htt.symm hdt)
    · intro i hi
      obtain ⟨b, hb, rfl⟩ := List.mem_map.mp hi
      obtain ⟨d, hd⟩ := h.exists_of_mem hb
      obtain ⟨d', hd', hprev, -⟩ := hkept b (hne_of_mem b hb) d hd
      rw [dataPrev_eq hd, dataPrev_eq hd', hprev]
  · obtain ⟨hb', d, hd, hr⟩ := h.request b r hb
    have hne : b ≠ a := by
      rintro rfl
      rw [hnone] at hb
      cases hb
    obtain ⟨d', hd', -, hr'⟩ := hkept b hne d hd
    exact ⟨by simpa using ⟨hb', hne⟩, d', hd', hr'.trans hr⟩
  · rcases eq_or_ne b a with rfl | hne
    · exact .inl (by simp)
    · by_cases ht : p.dataTail = some b
      · exact .inl (List.mem_append_left _ (h.tail_mem ht))
      · rw [hother b hne ht] at hb
        rcases h.live b d hb with hmem | hreq | htaken
        · exact .inl (List.mem_append_left _ hmem)
        · exact .inr (.inl hreq)
        · exact absurd (Option.some.inj htaken).symm hne

/-- `fh_xio_data_disown`: the record is listed, or freed if the list is full. -/
theorem disown {a : ℕ} (h : p.Wf free requests (some a)) :
    ∃ p' free', fhXioDataDisown p a = some p' ∧ p'.Wf free' requests none := by
  obtain ⟨hfree, -, d, hd⟩ := h.taken_eq a rfl
  rw [fhXioDataDisown]
  by_cases hfull : p.dataCount ≥ xioMaxDataFreelistCount
  · rw [if_pos hfull]
    obtain ⟨p', hp', hwf⟩ := h.release
    exact ⟨p', free, hp', hwf⟩
  · rw [if_neg hfull, DataPool.modify_eq hd]
    have hlt : free.length < xioMaxDataFreelistCount := by
      rw [← h.count_eq]
      exact Nat.lt_of_not_le hfull
    have hcount : u64 (p.dataCount + 1) = p.dataCount + 1 := by
      have hmax : xioMaxDataFreelistCount = 2048 := rfl
      rw [h.count_eq]
      exact u64_of_lt (by omega)
    simp only [Option.bind_eq_bind, Option.bind_some]
    cases htail : p.dataTail with
    | none =>
      refine ⟨_, _, rfl, h.push hlt (d := d) ?_ rfl hcount ?_ ?_ ?_⟩
      · rw [if_pos htail]
      · rw [htail]
        exact Function.update_self _ _ _
      · intro t dt ht
        rw [htail] at ht
        cases ht
      · exact fun b hb _ => Function.update_of_ne hb _ _
    | some t =>
      -- The tail is a listed record, so it is not `a`.
      have ht' := h.tail_mem htail
      obtain ⟨dt, hdt⟩ := h.exists_of_mem ht'
      have hta : t ≠ a := fun he => hfree (he ▸ ht')
      have hdt' : Function.update p.heap a (some { d with next := none, prev := some t }) t
          = some dt := by rw [Function.update_of_ne hta, hdt]
      dsimp only
      rw [DataPool.modify_mk hdt']
      refine ⟨_, _, rfl, h.push hlt (d := d) ?_ rfl hcount ?_ ?_ ?_⟩
      · rw [if_neg (by rw [htail]; exact Option.some_ne_none _)]
      · dsimp only
        rw [Function.update_of_ne hta.symm, Function.update_self, htail]
      · intro t₀ d₀ h₀ hd₀
        obtain rfl : t = t₀ := Option.some.inj (htail.symm.trans h₀)
        dsimp only
        rw [Function.update_self, ← Option.some.inj (hdt.symm.trans hd₀)]
      · intro b hb hbt
        dsimp only
        rw [Function.update_of_ne fun he => hbt (by rw [htail, he]), Function.update_of_ne hb]

/-- Unlinking the last record of the free list. -/
theorem pop {a : ℕ} {l : List ℕ} (h : p.Wf (l ++ [a]) requests none) {p' : DataPool U}
    {d d' : XioData U} (hd : p.heap a = some d)
    (hhead : p'.dataHead = if d.prev = none then none else p.dataHead)
    (htail : p'.dataTail = d.prev) (hcount : p'.dataCount = p.dataCount - 1)
    (hself : p'.heap a = some d')
    (hlast : ∀ t dt, d.prev = some t → p.heap t = some dt →
      p'.heap t = some { dt with next := none })
    (hother : ∀ b, b ≠ a → d.prev ≠ some b → p'.heap b = p.heap b) :
    p'.Wf l requests (some a) := by
  obtain ⟨hnd, htail_eq, d₀, hd₀, hprev⟩ := h.last
  obtain rfl := Option.some.inj (hd.symm.trans hd₀)
  have hlist := h.list
  rw [List.map_append, List.map_singleton] at hlist
  have hprev_mem : ∀ t, d.prev = some t → t ∈ l :=
    fun t ht => mem_of_getLastD_map_some (hprev.symm.trans ht)
  have hne_of_mem : ∀ b ∈ l, b ≠ a := fun b hb he => hnd (he ▸ hb)
  -- A record other than `a` keeps everything but perhaps its `next`.
  have hkept : ∀ b, b ≠ a → ∀ db, p.heap b = some db →
      ∃ db', p'.heap b = some db' ∧ db'.prev = db.prev ∧ db'.request = db.request := by
    intro b hb db hdb
    by_cases ht : d.prev = some b
    · exact ⟨_, hlast b db ht hdb, rfl, rfl⟩
    · exact ⟨db, (hother b hb ht).trans hdb, rfl, rfl⟩
  have hexists : ∀ b ∈ l, ∃ db, p.heap b = some db :=
    fun b hb => h.exists_of_mem (List.mem_append_left _ hb)
  refine
    { list := ?_
      count_eq := by rw [hcount, h.count_eq, List.length_append, List.length_singleton]; rfl
      count_le := by
        have := h.count_le
        rw [List.length_append] at this
        omega
      request := fun b r hb => ?_
      taken_eq := fun b hb => ?_
      live := fun b db hb => ?_ }
  · have hnext : ∀ i ∈ l.map some ++ [], i ≠ d.prev → dataNext p' i = dataNext p i := by
      intro i hi hne
      rw [List.append_nil] at hi
      obtain ⟨b, hb, rfl⟩ := List.mem_map.mp hi
      exact dataNext_congr (hother b (hne_of_mem b hb) fun he => hne he.symm)
    have hnextp : d.prev ≠ none → dataNext p' d.prev = some none := by
      intro hne
      obtain ⟨t, ht⟩ := Option.ne_none_iff_exists'.mp hne
      obtain ⟨dt, hdt⟩ := hexists t (hprev_mem t ht)
      rw [ht]
      exact dataNext_eq (hlast t dt ht hdt)
    have hprev' : ∀ i ∈ l.map some ++ [], i ≠ none → dataPrev p' i = dataPrev p i := by
      intro i hi _
      rw [List.append_nil] at hi
      obtain ⟨b, hb, rfl⟩ := List.mem_map.mp hi
      obtain ⟨db, hdb⟩ := hexists b hb
      obtain ⟨db', hdb', hdprev, -⟩ := hkept b (hne_of_mem b hb) db hdb
      rw [dataPrev_eq hdb, dataPrev_eq hdb', hdprev]
    have hunlink := hlist.unlink (rfl : (none : Option ℕ) = _) hprev hnext hnextp hprev'
      (fun hne => absurd rfl hne)
    -- The record is the head exactly if nothing is before it.
    have hhead_eq : (if some a = p.dataHead then none else p.dataHead)
        = if d.prev = none then none else p.dataHead := by
      rw [hprev, hlist.head_eq]
      cases l with
      | nil => simp
      | cons b l =>
        have hba : some a ≠ some b := fun he => hne_of_mem b (by simp) (Option.some.inj he).symm
        have hlast : ((b :: l).map some).getLastD none ≠ none := fun he => by
          have hmem := List.getLastD_mem_of_ne_nil (l := (b :: l).map some) (by simp) none
          rw [he] at hmem
          simp at hmem
        rw [if_neg (by simpa using hba), if_neg hlast]
    rw [hhead_eq, if_pos htail_eq.symm, List.append_nil] at hunlink
    rw [hhead, htail]
    exact hunlink
  · obtain ⟨hb', db, hdb, hr⟩ := h.request b r hb
    rw [List.mem_append, List.mem_singleton, not_or] at hb'
    obtain ⟨db', hdb', -, hr'⟩ := hkept b hb'.2 db hdb
    exact ⟨hb'.1, db', hdb', hr'.trans hr⟩
  · obtain rfl := Option.some.inj hb
    refine ⟨hnd, ?_, d', hself⟩
    by_contra hne
    obtain ⟨r, hr⟩ := Option.ne_none_iff_exists'.mp hne
    exact (h.request a r hr).1 (by simp)
  · rcases eq_or_ne b a with rfl | hne
    · exact .inr (.inr rfl)
    · by_cases ht : d.prev = some b
      · exact .inl (hprev_mem b ht)
      · rw [hother b hne ht] at hb
        rcases h.live b db hb with hmem | hreq | htaken
        · rw [List.mem_append, List.mem_singleton] at hmem
          exact .inl (hmem.resolve_right hne)
        · exact .inr (.inl hreq)
        · cases htaken

/-- `fh_xio_data_get`: a listed record, or one that `malloc` gives. -/
theorem get (h : p.Wf free requests none) {malloc : Option ℕ}
    (hmalloc : ∀ a, malloc = some a → p.heap a = none) :
    (fhXioDataGet malloc p = some (none, p)) ∨
      ∃ a p' free', fhXioDataGet malloc p = some (some a, p') ∧ p'.Wf free' requests (some a) := by
  rw [fhXioDataGet]
  rcases List.eq_nil_or_concat free with rfl | ⟨l, a, rfl⟩
  · rw [if_pos (h.count_eq.trans List.length_nil)]
    cases malloc with
    | none => exact .inl rfl
    | some a => exact .inr ⟨a, _, [], rfl, h.alloc (hmalloc a rfl)⟩
  · rw [List.concat_eq_append] at h
    have hcount := h.count_eq
    rw [List.length_append, List.length_singleton] at hcount
    obtain ⟨hnd, htail, d, hd, hprev⟩ := h.last
    rw [if_neg (by omega), htail]
    simp only [Option.bind_eq_bind, Option.bind_some, hd]
    refine .inr ?_
    cases hp : d.prev with
    -- The record was the only one listed.
    | none =>
      dsimp only
      rw [DataPool.modify_mk hd]
      refine ⟨a, _, l, rfl, h.pop hd ?_ hp.symm rfl (Function.update_self _ _ _) ?_ ?_⟩
      · rw [if_pos hp]
      · intro t dt ht
        rw [hp] at ht
        cases ht
      · exact fun b hb _ => Function.update_of_ne hb _ _
    -- The record before it becomes the tail.
    | some t =>
      have htl : t ∈ l := mem_of_getLastD_map_some (hprev.symm.trans hp)
      have hta : t ≠ a := fun he => hnd (he ▸ htl)
      obtain ⟨dt, hdt⟩ := h.exists_of_mem (a := t) (by simp [htl])
      have hda : Function.update p.heap t (some { dt with next := none }) a = some d := by
        rw [Function.update_of_ne hta.symm, hd]
      simp only
      rw [DataPool.modify_mk hdt]
      simp only [Option.bind_some]
      rw [DataPool.modify_mk hda]
      refine ⟨a, _, l, rfl, h.pop hd ?_ hp.symm rfl (Function.update_self _ _ _) ?_ ?_⟩
      · rw [if_neg (by rw [hp]; exact Option.some_ne_none _)]
      · intro t₀ d₀ h₀ hd₀
        obtain rfl : t = t₀ := Option.some.inj (hp.symm.trans h₀)
        dsimp only
        rw [Function.update_of_ne hta, Function.update_self, ← Option.some.inj (hdt.symm.trans hd₀)]
      · intro b hb hbt
        dsimp only
        rw [Function.update_of_ne hb, Function.update_of_ne fun he => hbt (by rw [hp, he])]

/-- `fh_xio_request_prep_common` fails, leaving the requests as they are, or gives a
record to the code. -/
theorem prepCommon (h : p.Wf free requests none) {env : RequestEnv}
    (hmalloc : ∀ a, env.malloc = some a → p.heap a = none) :
    (∃ rc p' free', fhXioRequestPrepCommon env p = some (.error rc, p') ∧ rc < 0 ∧
        p'.Wf free' requests none) ∨
      ∃ a p' free', fhXioRequestPrepCommon env p = some (.ok a, p') ∧
        p'.Wf free' requests (some a) := by
  rw [fhXioRequestPrepCommon]
  rcases h.get hmalloc with hget | ⟨a, p₁, free₁, hget, h₁⟩
  · rw [hget]
    exact .inl ⟨-eNoMem, p, free, rfl, by decide, h⟩
  · rw [hget]
    simp only [Option.bind_eq_bind, Option.bind_some]
    by_cases hsqe : fhXioRingGetSqe env.sqe env.sqeAfterSubmit = true
    · rw [if_pos hsqe]
      exact .inr ⟨a, p₁, free₁, rfl, h₁⟩
    · -- Without a submission entry the record is given back.
      rw [if_neg hsqe]
      obtain ⟨p₂, free₂, hdisown, h₂⟩ := h₁.disown
      rw [hdisown]
      exact .inl ⟨-eAgain, p₂, free₂, rfl, by decide, h₂⟩

/-- A request function fails, leaving the requests as they are, or fills in a record
that no request holds. -/
theorem requestWith {x : Xio U} (h : x.records.Wf free requests none) {env : RequestEnv}
    (hmalloc : ∀ a, env.malloc = some a → x.records.heap a = none) (udata : Option U)
    (opdata : XioOpData) (sqe : IoUringSqe → IoUringSqe) :
    (∃ rc p' free', requestWith env x udata opdata sqe
          = some ((rc, none), { x with records := p' }) ∧ rc < 0 ∧ p'.Wf free' requests none) ∨
      ∃ a p' free', requestWith env x udata opdata sqe
          = some ((0, some (sqe ⟨opdata, 0, .data a, none⟩)), { x with records := p' }) ∧
        requests a = none ∧
        p'.Wf free' (Function.update requests a (some ⟨udata, opdata⟩)) none := by
  rw [Uring.requestWith]
  rcases h.prepCommon hmalloc with ⟨rc, p', free', hprep, hrc, h'⟩ | ⟨a, p', free', hprep, h'⟩
  · rw [hprep]
    exact .inl ⟨rc, p', free', rfl, hrc, h'⟩
  · obtain ⟨p'', hfill, h''⟩ := h'.fill ⟨udata, opdata⟩
    rw [hprep]
    simp only [Option.bind_eq_bind, Option.bind_some, hfill]
    exact .inr ⟨a, p'', free', rfl, (h'.taken_eq a rfl).2.1, h''⟩

end DataPool.Wf

end Freehttpd.Uring
