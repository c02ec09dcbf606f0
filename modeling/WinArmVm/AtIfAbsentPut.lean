import WinArmVm.HashedRuns

namespace WinArmVm.Hashed

open Option Function

open LinearProbing (Table)

variable {K V : Type}

/-- A block that sends messages to the dictionary, each as the answers before it say, and answers a
value in the end. -/
inductive Script (K V : Type) where
  | answer (value : V)
  | atPut (key : K) (value : V) (rest : Script K V)
  | atIfAbsent (key : K) (rest : Option V → Script K V)
  | atIfAbsentPut (key : K) (aBlock : Script K V) (rest : V → Script K V)
  | removeKeyIfAbsent (key : K) (rest : Option V → Script K V)
  | keysAndValuesDo (rest : List (K × V) → Script K V)

namespace Script

variable (H : Hashing K)

def run : Script K V → Dictionary K V → Option (V × Dictionary K V)
  | answer value, d => some (value, d)
  | atPut key value rest, d => do rest.run (← d.atPut H key value)
  | atIfAbsent key rest, d => do (rest (← d.atIfAbsent H key)).run d
  | atIfAbsentPut key aBlock rest, d => do
    let (v, d) ← d.atIfAbsentPut H key aBlock.run
    (rest v).run d
  | removeKeyIfAbsent key rest, d => do
    let (val, d) ← d.removeKeyIfAbsent H key
    (rest val).run d
  | keysAndValuesDo rest, d => (rest d.keysAndValues).run d

end Script

namespace Dictionary

variable (H : Hashing K)

/-- The slot found before the block still fits after it: it is empty, the key is still absent, and
its probe ends there or the entries are probed again anyway. -/
def SlotFits (d d' : Dictionary K V) (key : K) : Prop :=
  ∃ i, d.scanFor H key = some i ∧ d'.table.slot i = none ∧ d'.atIfAbsent H key = some none ∧
    (d'.scanFor H key = some i ∨ (d'.tally + 1) * 2 > d'.table.capacity)

/-- The keys present before have their values, the given key the answered one, and `size` counts the
keys. -/
def Tolerated (d' d'' : Dictionary K V) (key : K) (v : V) : Prop :=
  (∀ k w, d'.atIfAbsent H k = some (some w) → H.same k key = false → d''.atIfAbsent H k = some (some w)) ∧
    d''.atIfAbsent H key = some (some v) ∧ d''.tally = (H.view d''.table).keys.card

end Dictionary

namespace Script

variable (H : Hashing K)

/-- In every `at:ifAbsentPut:` among the messages the slot still fits after the block. -/
def Fits : Script K V → Dictionary K V → Prop
  | answer _, _ => True
  | atPut key value rest, d => ∀ d', d.atPut H key value = some d' → rest.Fits d'
  | atIfAbsent key rest, d => ∀ val, d.atIfAbsent H key = some val → (rest val).Fits d
  | atIfAbsentPut key aBlock rest, d =>
    (d.atIfAbsent H key = some none → aBlock.Fits d ∧ ∀ v d', aBlock.run H d = some (v, d') → d.SlotFits H d' key) ∧
    ∀ v d'', d.atIfAbsentPut H key (aBlock.run H) = some (v, d'') → (rest v).Fits d''
  | removeKeyIfAbsent key rest, d => ∀ val d', d.removeKeyIfAbsent H key = some (val, d') → (rest val).Fits d'
  | keysAndValuesDo rest, d => (rest d.keysAndValues).Fits d

end Script

namespace Dictionary

variable {H : Hashing K} {d d' d'' : Dictionary K V} {m : H.Key → Option V} {key : K} {v : V}

theorem atIfAbsentPut_present {w : V} (aBlock : Dictionary K V → Option (V × Dictionary K V))
    (h : d.atIfAbsent H key = some (some w)) : d.atIfAbsentPut H key aBlock = some (w, d) := by
  unfold atIfAbsent at h
  unfold atIfAbsentPut
  cases hscan : d.scanFor H key with
  | none =>
    rw [hscan] at h
    cases h
  | some i =>
    rw [hscan] at h
    simp only [bind_eq_bind, bind_some] at h ⊢
    cases hs : d.table.slot i with
    | none =>
      rw [hs] at h
      cases h
    | some kv =>
      rw [hs] at h
      cases h
      rfl

variable {aBlock : Dictionary K V → Option (V × Dictionary K V)} {i : Nat}

theorem atIfAbsentPut_absent (hscan : d.scanFor H key = some i) (habsent : d.atIfAbsent H key = some none) (hblock : aBlock d = some (v, d')) :
    d.atIfAbsentPut H key aBlock =
      (checkGrow H ⟨d'.tally + 1, d'.table.put i key v⟩).map fun d'' => (v, d'') := by
  unfold atIfAbsent at habsent
  unfold atIfAbsentPut
  rw [hscan] at habsent ⊢
  simp only [bind_eq_bind, bind_some] at habsent ⊢
  cases hs : d.table.slot i with
  | some kv =>
    rw [hs] at habsent
    cases habsent
  | none =>
    simp only [hblock, bind_some]
    show (checkGrow H ⟨d'.tally + 1, d'.table.put i key v⟩).bind _ = _
    cases checkGrow H ⟨d'.tally + 1, d'.table.put i key v⟩ with
    | none => rfl
    | some d'' => rfl

theorem checkGrow_tally {c c' : Dictionary K V} (h : c.checkGrow H = some c') :
    c'.tally = c.tally ∧ (∀ q, q ∈ (H.view c'.table).keys → q ∈ (H.view c.table).keys) ∧
      (¬ c.tally * 2 > c.table.capacity → c' = c) := by
  unfold checkGrow at h
  split at h
  next hfull =>
    unfold grow at h
    rw [map_eq_some_iff] at h
    obtain ⟨t', ht', rfl⟩ := h
    refine ⟨rfl, fun q hq => ?_, fun hfew => absurd hfull hfew⟩
    have hview : Table.reprobe (fun a b => decide (a = b)) H.keyWord (H.view c.table) c.table.capacity
        (.empty (c.table.capacity * 2)) = some (H.view t') := by
      rw [← Hashing.view_empty, Hashing.reprobe_view, ht']
      rfl
    obtain ⟨i, hi, hold⟩ := Table.mem_keys.mp hq
    rcases (Table.reprobe_keys hview).2 q ⟨i, hold⟩ with ⟨i', v, hv⟩ | ⟨i', hi', hv⟩
    · cases hv
    · exact Table.mem_keys.mpr ⟨i', hi', hv⟩
  next =>
    cases h
    exact ⟨rfl, fun _ hq => hq, fun _ => rfl⟩

theorem scanFrom_put {t : Table K V} {same : K → K → Bool} {k : K} {i j fuel s : Nat} (hnone : t.slot i = none)
    (hij : j ≠ i) (h : Table.scanFrom same t key fuel s = some j) :
    Table.scanFrom same (t.put i k v) key fuel s = some j := by
  induction fuel generalizing s with
  | zero => cases h
  | succ fuel ih =>
    unfold Table.scanFrom at h ⊢
    have hsi : s ≠ i := by
      rintro rfl
      rw [hnone] at h
      exact hij (some.inj h).symm
    rw [Table.put_slot_ne _ _ _ hsi]
    cases hs : t.slot s with
    | none =>
      rw [hs] at h
      exact h
    | some kv =>
      obtain ⟨probe, u⟩ := kv
      rw [hs] at h
      dsimp only at h ⊢
      split at h
      next hsame =>
        rw [if_pos hsame]
        exact h
      next hother =>
        rw [if_neg hother]
        exact ih h

variable {m' : H.Key → Option V}

theorem Refines.tolerated (h' : d'.Refines H m')
    (h'' : d''.Refines H (Function.update m' (H.key key) (some v))) : Tolerated H d' d'' key v := by
  refine ⟨fun k w hk hne => ?_, ?_, h''.stores.tally⟩
  · have hkey : H.key k ≠ H.key key := fun he => by
      rw [H.key_eq_iff.mp he] at hne
      cases hne
    rw [h'.atIfAbsent] at hk
    rw [h''.atIfAbsent, update_of_ne hkey]
    exact hk
  · rw [h''.atIfAbsent, update_self]

theorem SlotFits.refines {m' : H.Key → Option V} {aBlock : Dictionary K V → Option (V × Dictionary K V)}
    (h : d.Refines H m) (h' : d'.Refines H m') (hcap : d.table.capacity ≤ d'.table.capacity)
    (habsent : d.atIfAbsent H key = some none) (hblock : aBlock d = some (v, d')) (hfits : d.SlotFits H d' key) :
    ∃ d'', d.atIfAbsentPut H key aBlock = some (v, d'') ∧
      d''.Refines H (Function.update m' (H.key key) (some v)) ∧ d'.table.capacity ≤ d''.table.capacity := by
  obtain ⟨i, hscan, hnone, hmiss, hplace⟩ := hfits
  obtain ⟨i₀, hi₀, hscan₀, -⟩ := h.stores.scan h.load key
  have hi : i < d.table.capacity := by
    cases (hscan.symm.trans hscan₀)
    exact hi₀
  have hm' : m' (H.key key) = none := by
    rw [h'.atIfAbsent] at hmiss
    exact some.inj hmiss
  have hhalf := h'.half
  have hfew : (d'.tally + 1) * 2 ≤ d'.table.capacity + 2 := by omega
  have hchecked : ∃ d'', checkGrow H ⟨d'.tally + 1, d'.table.put i key v⟩ = some d'' ∧
      d''.Refines H (Function.update m' (H.key key) (some v)) ∧ d'.table.capacity ≤ d''.table.capacity := by
    by_cases hfull : (d'.tally + 1) * 2 > d'.table.capacity
    · have hbinds : H.Binds (d'.table.put i key v) (d'.tally + 1) (Function.update m' (H.key key) (some v)) := by
        refine h'.stores.toBinds.put (by omega) (.inl ⟨hnone, hm'⟩) ?_
        rw [Finset.card_insert_of_notMem (h'.stores.eq_none_iff.mp hm'), ← h'.stores.tally]
      unfold checkGrow
      rw [if_pos (show (d'.tally + 1) * 2 > (d'.table.put i key v).capacity from hfull)]
      exact grow_spec hbinds hfew
    · have hscan' := hplace.resolve_right hfull
      obtain ⟨i', hi', hends, hcase⟩ := h'.stores.scan h'.load key
      cases (hscan'.symm.trans hends)
      rcases hcase with ⟨-, -, hput⟩ | ⟨k', v', hs, -⟩
      · exact checkGrow_spec (hput v) hfew
      · rw [hnone] at hs
        cases hs
  obtain ⟨d'', hgrow, hd'', hcap''⟩ := hchecked
  refine ⟨d'', ?_, hd'', hcap''⟩
  rw [atIfAbsentPut_absent hscan habsent hblock, hgrow]
  rfl

theorem free_of_counted (h' : d'.Refines H m') (hi : i < d'.table.capacity)
    (hgrow : checkGrow H ⟨d'.tally + 1, d'.table.put i key v⟩ = some d'')
    (hcount : d''.tally = (H.view d''.table).keys.card) : d'.table.slot i = none ∧ m' (H.key key) = none := by
  obtain ⟨htally, hkeys, -⟩ := checkGrow_tally hgrow
  have htally : d''.tally = d'.tally + 1 := htally
  -- The keys after are the given one and those of the other slots.
  have hsub : ∀ q ∈ (H.view d''.table).keys, q = H.key key ∨ ∃ i' < d'.table.capacity, i' ≠ i ∧
      (H.view d'.table).Holds q i' := by
    intro q hq
    obtain ⟨i', hi', w, hw⟩ := Table.mem_keys.mp (hkeys q hq)
    by_cases hii : i' = i
    · subst hii
      rw [Hashing.view_put, Table.put_slot_self] at hw
      cases hw
      exact .inl rfl
    · rw [Hashing.view_put, Table.put_slot_ne _ _ _ hii] at hw
      exact .inr ⟨i', hi', hii, w, hw⟩
  have hmiss : H.key key ∉ (H.view d'.table).keys := by
    intro hmem
    have hle : (H.view d''.table).keys ⊆ (H.view d'.table).keys := by
      intro q hq
      rcases hsub q hq with rfl | ⟨i', hi', -, hold⟩
      · exact hmem
      · exact Table.mem_keys.mpr ⟨i', hi', hold⟩
    have := Finset.card_le_card hle
    rw [← hcount, ← h'.stores.tally] at this
    omega
  refine ⟨?_, h'.stores.eq_none_iff.mpr hmiss⟩
  by_contra hheld
  obtain ⟨⟨k', v'⟩, hs⟩ := ne_none_iff_exists'.mp hheld
  have hat : (H.view d'.table).Holds (H.key k') i := ⟨v', H.view_slot_eq_some.mpr ⟨k', hs, rfl⟩⟩
  have hle : (H.view d''.table).keys ⊆ insert (H.key key) ((H.view d'.table).keys.erase (H.key k')) := by
    intro q hq
    rcases hsub q hq with rfl | ⟨i', hi', hii, hold⟩
    · exact Finset.mem_insert_self _ _
    · refine Finset.mem_insert_of_mem (Finset.mem_erase.mpr ⟨?_, Table.mem_keys.mpr ⟨i', hi', hold⟩⟩)
      rintro rfl
      exact hii (h'.stores.unique _ _ _ hi' hi hold hat)
  have hmem : H.key k' ∈ (H.view d'.table).keys := Table.mem_keys.mpr ⟨i, hi, hat⟩
  have hpos := Finset.card_pos.mpr ⟨_, hmem⟩
  have := (Finset.card_le_card hle).trans (Finset.card_insert_le ..)
  rw [Finset.card_erase_of_mem hmem, ← hcount, ← h'.stores.tally] at this
  rw [← h'.stores.tally] at hpos
  omega

theorem tolerated_iff_slotFits (h : d.Refines H m) (h' : d'.Refines H m') (hcap : d.table.capacity ≤ d'.table.capacity)
    (habsent : d.atIfAbsent H key = some none) (hblock : aBlock d = some (v, d')) :
    (∃ d'', d.atIfAbsentPut H key aBlock = some (v, d'') ∧ Tolerated H d' d'' key v) ↔ d.SlotFits H d' key := by
  constructor
  · rintro ⟨d'', hput, htol⟩
    obtain ⟨i, hi, hscan, -⟩ := h.stores.scan h.load key
    rw [atIfAbsentPut_absent hscan habsent hblock, map_eq_some_iff] at hput
    obtain ⟨c, hgrow, hc⟩ := hput
    cases hc
    obtain ⟨hnone, hmiss⟩ := free_of_counted h' (by omega) hgrow htol.2.2
    refine ⟨i, hscan, hnone, by rw [h'.atIfAbsent, hmiss], ?_⟩
    by_contra hbad
    obtain ⟨hscan', hfew⟩ := not_or.mp hbad
    have hsame := (checkGrow_tally hgrow).2.2 hfew
    obtain ⟨j, hj, hends, hcase⟩ := h'.stores.scan h'.load key
    have hji : j ≠ i := fun he => hscan' (he ▸ hends)
    -- The probe for the key still stops at the empty slot it stopped at before.
    have hprobe : d''.scanFor H key = some j := by
      rw [hsame]
      exact scanFrom_put hnone hji hends
    have hempty : d''.table.slot j = none := by
      rw [hsame]
      show (d'.table.put i key v).slot j = none
      rw [Table.put_slot_ne _ _ _ hji]
      rcases hcase with ⟨hs, -⟩ | ⟨k', v', -, -, hm, -⟩
      · exact hs
      · rw [hmiss] at hm
        cases hm
    have hfound := htol.2.1
    unfold atIfAbsent at hfound
    rw [hprobe] at hfound
    simp only [bind_eq_bind, bind_some, hempty] at hfound
    cases hfound
  · intro hfits
    obtain ⟨d'', hput, hd'', -⟩ := hfits.refines h h' hcap habsent hblock
    exact ⟨d'', hput, h'.tolerated hd''⟩

end Dictionary

namespace Script

variable {H : Hashing K} {d : Dictionary K V} {m : H.Key → Option V}

theorem run_fits {aBlock : Script K V} (h : d.Refines H m) (hfits : aBlock.Fits H d) :
    ∃ v d' m', aBlock.run H d = some (v, d') ∧ d'.Refines H m' ∧ d.table.capacity ≤ d'.table.capacity := by
  induction aBlock generalizing d m with
  | answer value => exact ⟨value, d, m, rfl, h, le_rfl⟩
  | atPut key value rest ih =>
    obtain ⟨d₁, hput, h₁, hcap₁⟩ := h.atPut key value
    obtain ⟨v, d', m', hrest, h', hcap'⟩ := ih h₁ (hfits d₁ hput)
    exact ⟨v, d', m', (congrArg (Option.bind · _) hput).trans hrest, h', hcap₁.trans hcap'⟩
  | atIfAbsent key rest ih =>
    have hat := h.atIfAbsent key
    obtain ⟨v, d', m', hrest, h', hcap'⟩ := ih _ h (hfits _ hat)
    exact ⟨v, d', m', (congrArg (Option.bind · _) hat).trans hrest, h', hcap'⟩
  | atIfAbsentPut key aBlock rest ihBlock ih =>
    have hat := h.atIfAbsent key
    have hput : ∃ v d₁ m₁, d.atIfAbsentPut H key (aBlock.run H) = some (v, d₁) ∧ d₁.Refines H m₁ ∧
        d.table.capacity ≤ d₁.table.capacity := by
      cases hm : m (H.key key) with
      | some w =>
        rw [hm] at hat
        exact ⟨w, d, m, Dictionary.atIfAbsentPut_present _ hat, h, le_rfl⟩
      | none =>
        rw [hm] at hat
        obtain ⟨hinner, hslot⟩ := hfits.1 hat
        obtain ⟨v, d₀, m₀, hrun, h₀, hcap₀⟩ := ihBlock h hinner
        obtain ⟨d₁, hput, h₁, hcap₁⟩ := (hslot v d₀ hrun).refines h h₀ hcap₀ hat hrun
        exact ⟨v, d₁, _, hput, h₁, hcap₀.trans hcap₁⟩
    obtain ⟨v, d₁, m₁, hput, h₁, hcap₁⟩ := hput
    obtain ⟨v', d', m', hrest, h', hcap'⟩ := ih v h₁ (hfits.2 v d₁ hput)
    exact ⟨v', d', m', (congrArg (Option.bind · _) hput).trans hrest, h', hcap₁.trans hcap'⟩
  | removeKeyIfAbsent key rest ih =>
    obtain ⟨d₁, hremove, h₁, hcap₁⟩ := h.removeKeyIfAbsent key
    obtain ⟨v, d', m', hrest, h', hcap'⟩ := ih _ h₁ (hfits _ d₁ hremove)
    exact ⟨v, d', m', (congrArg (Option.bind · _) hremove).trans hrest, h', hcap₁.trans hcap'⟩
  | keysAndValuesDo rest ih => exact ih _ h hfits

end Script

/-- A key that is present keeps the dictionary as it is. For an absent one the block runs, and the
dictionary it left tolerates the new binding exactly when the slot found before still fits. -/
theorem atIfAbsentPut_tolerates {H : Hashing K} {d : Dictionary K V} {m : H.Key → Option V} (h : d.Refines H m)
    (key : K) (aBlock : Script K V) (hfits : d.atIfAbsent H key = some none → aBlock.Fits H d) :
    (∀ w, d.atIfAbsent H key = some (some w) →
      d.atIfAbsentPut H key (aBlock.run H) = some (w, d) ∧ Dictionary.Tolerated H d d key w) ∧
    (d.atIfAbsent H key = some none → ∃ v d', aBlock.run H d = some (v, d') ∧
      ((∃ d'', d.atIfAbsentPut H key (aBlock.run H) = some (v, d'') ∧ Dictionary.Tolerated H d' d'' key v) ↔
        d.SlotFits H d' key)) := by
  refine ⟨fun w hw => ⟨Dictionary.atIfAbsentPut_present _ hw, fun _ _ hk _ => hk, hw, h.stores.tally⟩,
    fun habsent => ?_⟩
  obtain ⟨v, d', m', hrun, h', hcap⟩ := Script.run_fits h (hfits habsent)
  exact ⟨v, d', hrun, Dictionary.tolerated_iff_slotFits h h' hcap habsent hrun⟩

/-- Small integers: `=` is identity and each is its own hash. -/
def integers : Hashing Int where
  same a b := decide (a = b)
  hash a := a
  refl _ := decide_eq_true rfl
  symm h := decide_eq_true (of_decide_eq_true h).symm
  trans h h' := decide_eq_true ((of_decide_eq_true h).trans (of_decide_eq_true h'))
  consistent h := of_decide_eq_true h

theorem atIfAbsentPut_tolerates_other : ∃ d'', (Dictionary.new : Dictionary Int Int).atIfAbsentPut integers 1
        ((Script.atPut 2 10 (.answer 20)).run integers) = some (20, d'') ∧
      d''.atIfAbsent integers 2 = some (some 10) := by
  have h := (atIfAbsentPut_tolerates (H := integers) Dictionary.new_refines 1 (Script.atPut 2 10 (.answer (20 : Int)))
    fun _ _ _ => trivial).2 rfl
  obtain ⟨v, d', hrun, hiff⟩ := h
  have hdone : (Script.atPut 2 10 (.answer (20 : Int))).run integers Dictionary.new =
      some (20, ⟨1, Table.put (.empty 8) 2 2 10⟩) := rfl
  cases (hrun.symm.trans hdone)
  obtain ⟨d'', hput, htol⟩ := hiff.mpr ⟨1, rfl, rfl, rfl, .inl rfl⟩
  exact ⟨d'', hput, htol.1 2 10 rfl rfl⟩

/-- The block adds the key itself: one key, counted twice. -/
theorem same_key_counted_twice :
    ∃ d' d'', (Script.atPut 1 10 (.answer (20 : Int))).run integers Dictionary.new = some (20, d') ∧
      (Dictionary.new : Dictionary Int Int).atIfAbsentPut integers 1
        ((Script.atPut 1 10 (.answer 20)).run integers) = some (20, d'') ∧
      d''.tally = 2 ∧ ¬ Dictionary.Tolerated integers d' d'' 1 20 := by
  refine ⟨_, _, rfl, rfl, rfl, fun h => ?_⟩
  have hcount := h.2.2
  revert hcount
  decide

end WinArmVm.Hashed
