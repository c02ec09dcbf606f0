import WinArmVm.SupervisorEffects

namespace WinArmVm.Supervision

open List Triple WorkerSupervisor

variable {T : Tree} {s t u : State} {p c : Nat}

structure Steady (T : Tree) (s : State) (p : Nat) : Prop where
  running : s.state p = .running → ∀ c ∈ (T.supervisor p).children, (T.spec c).restart = .permanent →
    (T.spec c).supervisorChild = none → (s.worker c).isSome
  down : s.state p ≠ .running → ∀ c ∈ (T.supervisor p).children, s.worker c = none

theorem Steady.congr (h : Steady T s p) (hstate : t.state p = s.state p)
    (hworker : ∀ c ∈ (T.supervisor p).children, t.worker c = s.worker c) : Steady T t p := by
  refine ⟨?_, ?_⟩
  · intro hr c hc hperm hleaf
    rw [hworker c hc]
    exact h.running (hstate ▸ hr) c hc hperm hleaf
  · intro hr c hc
    rw [hworker c hc]
    exact h.down (hstate ▸ hr) c hc

def Lower (T : Tree) (p : Nat) (s : State) : Prop := ∀ q, T.height q < T.height p → Steady T s q

structure Beside (T : Tree) (p : Nat) (s t : State) : Prop where
  state : ∀ q, T.height p ≤ T.height q → q ≠ p → t.state q = s.state q
  worker : ∀ q c, T.height p ≤ T.height q → q ≠ p → c ∈ (T.supervisor q).children → t.worker c = s.worker c

theorem Beside.refl : Beside T p s s := ⟨fun _ _ _ => rfl, fun _ _ _ _ _ => rfl⟩

theorem Beside.trans (h : Beside T p s t) (h' : Beside T p t u) : Beside T p s u := by
  refine ⟨?_, ?_⟩
  · intro q hq hne
    rw [h'.state q hq hne, h.state q hq hne]
  · intro q c hq hne hc
    rw [h'.worker q c hq hne hc, h.worker q c hq hne hc]

structure Working (T : Tree) (p : Nat) (s t : State) : Prop where
  sound : Sound T t
  lower : Lower T p t
  state : t.state p = s.state p
  beside : Beside T p s t

theorem Working.trans (h : Working T p s t) (h' : Working T p t u) : Working T p s u :=
  ⟨h'.sound, h'.lower, h'.state.trans h.state, h.beside.trans h'.beside⟩

theorem Working.of_child (hs : Sound T t) (hl : Lower T p s) (hc : c ∈ (T.supervisor p).children) (hstate : t.state = s.state)
    (hworker : ∀ d, d ≠ c → t.worker d = s.worker d) : Working T p s t := by
  have hother : ∀ q d, q ≠ p → d ∈ (T.supervisor q).children → t.worker d = s.worker d := by
    intro q d hne hd
    apply hworker
    rintro rfl
    exact hne (T.owner q p d hd hc)
  refine ⟨hs, ?_, by rw [hstate], ⟨fun q _ _ => by rw [hstate], fun q d _ hne hd => hother q d hne hd⟩⟩
  intro q hq
  have hne : q ≠ p := by
    rintro rfl
    omega
  exact (hl q hq).congr (by rw [hstate]) (fun d hd => hother q d hne hd)

theorem Working.of_lower {q : Nat} (hs : Sound T t) (hl : Lower T p s) (hq : T.height q < T.height p)
    (hlower : Lower T q t) (hsteady : Steady T t q) (hbeside : Beside T q s t) : Working T p s t := by
  refine ⟨hs, ?_, ?_, ?_⟩
  · intro x hx
    by_cases hxq : x = q
    · rw [hxq]; exact hsteady
    · by_cases hlt : T.height x < T.height q
      · exact hlower x hlt
      · exact (hl x hx).congr (hbeside.state x (by omega) hxq) (fun d hd => hbeside.worker x d (by omega) hxq hd)
  · apply hbeside.state p (by omega)
    rintro rfl
    omega
  · refine ⟨fun x hx _ => ?_, fun x d hx _ hd => ?_⟩
    · apply hbeside.state x (by omega)
      rintro rfl
      omega
    · apply hbeside.worker x d (by omega) _ hd
      rintro rfl
      omega

structure Stopped (T : Tree) (p : Nat) (s t : State) : Prop where
  sound : Sound T t
  lower : Lower T p t
  state : t.state p = .idle
  down : ∀ c ∈ (T.supervisor p).children, t.worker c = none
  beside : Beside T p s t

theorem Stopped.steady (h : Stopped T p s t) : Steady T t p :=
  ⟨fun hr => (nomatch h.state.symm.trans hr), fun _ => h.down⟩

def Stops (T : Tree) (stop : Nat → Guest Unit) (height : Nat) : Prop :=
  ∀ p s, T.height p < height → Sound T s → Lower T p s → Fine (fun _ t => Stopped T p s t) (stop p s)

theorem stopChild_fine (hnames : T.NamesDistinct) {stop : Nat → Guest Unit} (hstop : Stops T stop (T.height p))
    (hs : Sound T s) (hl : Lower T p s) (hc : c ∈ (T.supervisor p).children) :
    Fine (fun _ t => Working T p s t ∧ t.worker c = none ∧
      ∀ d ∈ (T.supervisor p).children, d ≠ c → t.worker d = s.worker d) (stopChild T stop c s) := by
  cases hsub : (T.spec c).supervisorChild with
  | none =>
    cases hw : s.worker c with
    | none =>
      rw [stopChild_none hsub hw]
      exact ⟨Working.of_child hs hl hc rfl fun _ _ => rfl, hw, fun _ _ _ => rfl⟩
    | some w =>
      rw [stopChild_some hsub hw]
      have hother : ∀ d, d ≠ c → (s.retire T c w).worker d = s.worker d := fun d hd => if_neg hd
      exact ⟨Working.of_child (hs.retire hnames hc hw) hl hc rfl hother, if_pos rfl, fun d _ hd => hother d hd⟩
  | some q =>
    have hq := T.lower p c q hc hsub
    unfold stopChild
    rw [hsub]
    have hlq : Lower T q s := fun x hx => hl x (by omega)
    refine (hstop q s hq hs hlq).mono fun _ t ht => ?_
    have hwork := Working.of_lower ht.sound hl hq ht.lower ht.steady ht.beside
    refine ⟨hwork, ?_, ?_⟩
    · cases hw : t.worker c with
      | none => rfl
      | some w =>
        rw [(ht.sound.leaf c w hw).1] at hsub
        cases hsub
    · intro d hd _
      apply ht.beside.worker p d (by omega) _ hd
      rintro rfl
      omega

theorem stopAll_fine (hnames : T.NamesDistinct) {stop : Nat → Guest Unit} (hstop : Stops T stop (T.height p)) (hs : Sound T s)
    (hl : Lower T p s) {l : List Nat} (hsub : ∀ c ∈ l, c ∈ (T.supervisor p).children) :
    Fine (fun _ t => Working T p s t ∧ (∀ c ∈ l, t.worker c = none) ∧
      ∀ c ∈ (T.supervisor p).children, c ∉ l → t.worker c = s.worker c) (l.forM (stopChild T stop) s) := by
  have hloop := ends_forM (A := (· = Halt.stuck)) (f := stopChild T stop) (I := fun rest t => Working T p s t ∧
      (∀ c ∈ rest, c ∈ l) ∧ (∀ c ∈ l, c ∉ rest → t.worker c = none) ∧
      ∀ c ∈ (T.supervisor p).children, c ∉ l → t.worker c = s.worker c) (by
    intro c rest t ⟨hwork, hrest, hdone, hsame⟩
    have hcl := hrest c mem_cons_self
    refine (stopChild_fine hnames hstop hwork.sound hwork.lower (hsub c hcl)).mono fun _ u hu => ?_
    obtain ⟨hwork', hnone, hother⟩ := hu
    refine ⟨hwork.trans hwork', fun d hd => hrest d (mem_cons_of_mem _ hd), ?_, ?_⟩
    · intro d hd hnot
      by_cases hdc : d = c
      · rw [hdc]; exact hnone
      · rw [hother d (hsub d hd) hdc]
        exact hdone d hd (by simp [hdc, hnot])
    · intro d hd hnot
      have hdc : d ≠ c := by
        rintro rfl
        exact hnot hcl
      rw [hother d hd hdc]
      exact hsame d hd hnot)
  have hinit : Working T p s s := ⟨hs, hl, rfl, Beside.refl⟩
  refine (hloop l s ⟨hinit, fun _ h => h, fun c hc hnot => absurd hc hnot, fun _ _ _ => rfl⟩).mono ?_
  intro _ t ⟨hwork, _, hdone, hsame⟩
  exact ⟨hwork, fun c hc => hdone c hc not_mem_nil, hsame⟩

theorem Lower.setState (h : Lower T p s) (x : SupervisorState) : Lower T p (s.setState p x) := by
  intro q hq
  have hne : q ≠ p := by
    rintro rfl
    omega
  exact (h q hq).congr (if_neg hne) fun _ _ => rfl

theorem stop_fine (hnames : T.NamesDistinct) : ∀ n height, Stops T (stop T n) height := by
  intro n
  induction n with
  | zero => intro height p s _ _ _; exact rfl
  | succ n ih =>
    intro height p s _ hs hl
    have hset : Sound T (s.setState p .idle) := hs.of_same rfl rfl rfl rfl rfl rfl
    have hall := stopAll_fine hnames (ih (T.height p)) hset (hl.setState .idle) (l := (T.supervisor p).children.reverse)
      fun c hc => mem_reverse.mp hc
    refine Ends.mono (r := stop T (n + 1) p s) hall fun _ t ht => ?_
    obtain ⟨hwork, hnone, _⟩ := ht
    refine ⟨hwork.sound, hwork.lower, ?_, fun c hc => hnone c (mem_reverse.mpr hc), ?_⟩
    · rw [hwork.state]
      exact if_pos rfl
    · refine ⟨fun q hq hne => ?_, hwork.beside.worker⟩
      rw [hwork.beside.state q hq hne]
      exact if_neg hne

/-- A supervisor that was started is steady again, and so is everything below it. -/
structure Started (T : Tree) (p : Nat) (s t : State) : Prop where
  sound : Sound T t
  lower : Lower T p t
  steady : Steady T t p
  beside : Beside T p s t

def Starts (T : Tree) (start : Nat → Guest Unit) (height : Nat) : Prop :=
  ∀ p s, T.height p < height → Sound T s → Lower T p s → Steady T s p → Fine (fun _ t => Started T p s t) (start p s)

theorem startChild_fine (hnames : T.NamesDistinct) {start : Nat → Guest Unit} (hstart : Starts T start (T.height p))
    (hs : Sound T s) (hl : Lower T p s) (hc : c ∈ (T.supervisor p).children) (hnone : s.worker c = none) :
    Fine (fun _ t => Working T p s t ∧ ((T.spec c).supervisorChild = none → (t.worker c).isSome) ∧
      ∀ d ∈ (T.supervisor p).children, d ≠ c → t.worker d = s.worker d) (startChild T start p c s) := by
  cases hsub : (T.spec c).supervisorChild with
  | none =>
    have hfree : s.names (T.spec c).name = none := by
      cases hn : s.names (T.spec c).name with
      | none => rfl
      | some w =>
        have hw := hs.bound p c w hc hsub hn
        rw [hnone] at hw
        cases hw
    cases ha : s.answers with
    | nil =>
      unfold startChild
      rw [hsub]
      have hspawn : spawnWorker s = .error .stuck s := by
        unfold spawnWorker
        rw [get_bind, ha]
        rfl
      have hx : Fine (fun _ _ => False) (spawnWorker s) := by rw [hspawn]; rfl
      exact hx.bind fun _ _ h => h.elim
    | cons a answers =>
      obtain ⟨hid, hhook⟩ := hs.clean a (by rw [ha]; exact mem_cons_self)
      obtain ⟨aid, b⟩ := a
      obtain ⟨id, rfl⟩ := Option.isSome_iff_exists.mp hid
      have hb : b = false := hhook
      subst hb
      cases halive : s.alive id with
      | true =>
        unfold startChild
        rw [hsub]
        have hspawn : spawnWorker s = .error .stuck s := by
          unfold spawnWorker
          rw [get_bind, ha]
          show (if s.alive id = true then _ else _ : Guest Worker) s = _
          rw [if_pos halive]
          rfl
        have hx : Fine (fun _ _ => False) (spawnWorker s) := by rw [hspawn]; rfl
        exact hx.bind fun _ _ h => h.elim
      | false =>
        rw [startChild_worker hsub ha halive hfree]
        have hother : ∀ d, d ≠ c → (s.adopt T p c id answers).worker d = s.worker d := fun d hd => if_neg hd
        refine ⟨Working.of_child (hs.adopt hnames hc hsub hnone ha halive) hl hc rfl hother, fun _ => ?_,
          fun d _ hd => hother d hd⟩
        show (if c = c then some _ else _ : Option Worker).isSome = true
        rw [if_pos rfl]
        rfl
  | some q =>
    have hq := T.lower p c q hc hsub
    unfold startChild
    rw [hsub]
    have hlq : Lower T q s := fun x hx => hl x (by omega)
    refine (hstart q s hq hs hlq (hl q hq)).bind fun _ t ht => ?_
    have hwork := Working.of_lower ht.sound hl hq ht.lower ht.steady ht.beside
    refine ⟨⟨hwork.sound.of_same rfl rfl rfl rfl rfl rfl, ?_, hwork.state, hwork.beside.state, hwork.beside.worker⟩, ?_, ?_⟩
    · intro x hx
      exact (hwork.lower x hx).congr rfl fun _ _ => rfl
    · intro hcontra
      cases hcontra
    · intro d hd _
      apply ht.beside.worker p d (by omega) _ hd
      rintro rfl
      omega

theorem startAll_fine (hnames : T.NamesDistinct) {start : Nat → Guest Unit} (hstart : Starts T start (T.height p))
    (hs : Sound T s) (hl : Lower T p s) {l : List Nat} (hnodup : l.Nodup)
    (hsub : ∀ c ∈ l, c ∈ (T.supervisor p).children ∧ s.worker c = none) :
    Fine (fun _ t => Working T p s t ∧ (∀ c ∈ l, (T.spec c).supervisorChild = none → (t.worker c).isSome) ∧
      ∀ c ∈ (T.supervisor p).children, c ∉ l → t.worker c = s.worker c) (l.forM (startChild T start p) s) := by
  have hloop := ends_forM (A := (· = Halt.stuck)) (f := startChild T start p) (I := fun rest t => Working T p s t ∧
      rest.Nodup ∧ (∀ c ∈ rest, c ∈ l ∧ t.worker c = none) ∧
      (∀ c ∈ l, c ∉ rest → (T.spec c).supervisorChild = none → (t.worker c).isSome) ∧
      ∀ c ∈ (T.supervisor p).children, c ∉ l → t.worker c = s.worker c) (by
    intro c rest t ⟨hwork, hnd, hrest, hdone, hsame⟩
    obtain ⟨hcl, hnone⟩ := hrest c mem_cons_self
    obtain ⟨hcrest, hnd⟩ := nodup_cons.mp hnd
    refine (startChild_fine hnames hstart hwork.sound hwork.lower (hsub c hcl).1 hnone).mono fun _ u hu => ?_
    obtain ⟨hwork', hsome, hother⟩ := hu
    refine ⟨hwork.trans hwork', hnd, ?_, ?_, ?_⟩
    · intro d hd
      obtain ⟨hdl, hdnone⟩ := hrest d (mem_cons_of_mem _ hd)
      have hdc : d ≠ c := by
        rintro rfl
        exact hcrest hd
      exact ⟨hdl, by rw [hother d (hsub d hdl).1 hdc]; exact hdnone⟩
    · intro d hd hnot hleaf
      by_cases hdc : d = c
      · rw [hdc]
        exact hsome (hdc ▸ hleaf)
      · rw [hother d (hsub d hd).1 hdc]
        exact hdone d hd (by simp [hdc, hnot]) hleaf
    · intro d hd hnot
      have hdc : d ≠ c := by
        rintro rfl
        exact hnot hcl
      rw [hother d hd hdc]
      exact hsame d hd hnot)
  have hinit : Working T p s s := ⟨hs, hl, rfl, Beside.refl⟩
  have hstarted := hloop l s ⟨hinit, hnodup, fun c hc => ⟨hc, (hsub c hc).2⟩, fun c hc hnot => absurd hc hnot, fun _ _ _ => rfl⟩
  refine hstarted.mono ?_
  intro _ t ⟨hwork, _, _, hdone, hsame⟩
  exact ⟨hwork, fun c hc => hdone c hc not_mem_nil, hsame⟩

theorem start_down {n : Nat} (h : s.state p ≠ .running) : start T (n + 1) p s =
    (T.supervisor p).children.forM (startChild T (start T n) p) ((s.setState p .running).setRestartTimes p []) := by
  unfold start
  show (if s.state p = .running then _ else _ : Guest Unit) s = _
  rw [if_neg h]
  rfl

theorem start_fine (hnames : T.NamesDistinct) : ∀ n height, Starts T (start T n) height := by
  intro n
  induction n with
  | zero => intro height p s _ _ _ _; exact rfl
  | succ n ih =>
    intro height p s _ hs hl hsteady
    by_cases hdown : s.state p = .running
    · unfold start
      show Fine _ ((if s.state p = .running then _ else _ : Guest Unit) s)
      rw [if_pos hdown]
      exact ⟨hs, hl, hsteady, Beside.refl⟩
    · rw [start_down hdown]
      let u := (s.setState p .running).setRestartTimes p []
      have hu : Sound T u := hs.of_same rfl rfl rfl rfl rfl rfl
      have hlu : Lower T p u := fun q hq => (hl.setState .running q hq).congr rfl fun _ _ => rfl
      have hall := startAll_fine hnames (ih (T.height p)) hu hlu (T.nodup p) fun c hc => ⟨hc, hsteady.down hdown c hc⟩
      refine Ends.mono hall fun _ t ht => ?_
      obtain ⟨hwork, hsome, _⟩ := ht
      have hrunning : t.state p = .running := by
        rw [hwork.state]
        exact if_pos rfl
      refine ⟨hwork.sound, hwork.lower, ⟨fun _ c hc _ hleaf => hsome c hc hleaf, fun hne => absurd hrunning hne⟩, ?_⟩
      refine ⟨fun q hq hne => ?_, hwork.beside.worker⟩
      rw [hwork.beside.state q hq hne]
      exact if_neg hne

theorem Working.steady (h : Working T p s t) (hothers : ∀ q, q ≠ p → Steady T s q) (hp : Steady T t p) :
    ∀ q, Steady T t q := by
  intro q
  by_cases hq : q = p
  · rw [hq]; exact hp
  · by_cases hlt : T.height q < T.height p
    · exact h.lower q hlt
    · exact (hothers q hq).congr (h.beside.state q (by omega) hq) (fun c hc => h.beside.worker q c (by omega) hq hc)

/-- A running supervisor has lost one child, and everything else is in order. -/
structure Bereaved (T : Tree) (s : State) (p c : Nat) : Prop where
  sound : Sound T s
  mem : c ∈ (T.supervisor p).children
  running : s.state p = .running
  gone : s.worker c = none
  rest : ∀ d ∈ (T.supervisor p).children, d ≠ c → (T.spec d).restart = .permanent → (T.spec d).supervisorChild = none →
    (s.worker d).isSome
  others : ∀ q, q ≠ p → Steady T s q

theorem Bereaved.lower (h : Bereaved T s p c) : Lower T p s := by
  intro q hq
  apply h.others
  rintro rfl
  omega

def Recovered (T : Tree) (s : State) : Prop := Sound T s ∧ ∀ q, Steady T s q

theorem Bereaved.recovered (h : Bereaved T s p c) (hwork : Working T p s t)
    (hsome : ∀ d ∈ (T.supervisor p).children, (T.spec d).restart = .permanent → (T.spec d).supervisorChild = none →
      (t.worker d).isSome) : Recovered T t := by
  have hrunning : t.state p = .running := hwork.state.trans h.running
  exact ⟨hwork.sound, hwork.steady h.others ⟨fun _ d hd hperm hleaf => hsome d hd hperm hleaf, fun hne => absurd hrunning hne⟩⟩

section

variable (hnames : T.NamesDistinct)

include hnames

theorem restartAllFrom_fine (h : Bereaved T s p c) (n : Nat) {startIndex : Nat}
    (hc : c ∈ (T.supervisor p).children.drop startIndex) : Fine (fun _ t => Recovered T t) (restartAllFrom T n p startIndex s) := by
  have hmem : ∀ d ∈ (T.supervisor p).children.drop startIndex, d ∈ (T.supervisor p).children := fun d hd => mem_of_mem_drop hd
  have hstopped := stopAll_fine hnames (stop_fine hnames n (T.height p)) h.sound h.lower
    (l := ((T.supervisor p).children.drop startIndex).reverse) fun d hd => hmem d (mem_reverse.mp hd)
  unfold restartAllFrom
  refine hstopped.bind fun _ t ⟨hwork, hnone, hsame⟩ => ?_
  have hstarted := startAll_fine hnames (start_fine hnames n (T.height p)) hwork.sound hwork.lower
    (l := ((T.supervisor p).children.drop startIndex).filter fun c => (T.spec c).restart ≠ .temporary)
    (((T.nodup p).sublist (drop_sublist _ _)).filter _) (by
      intro d hd
      have hdrop := (mem_filter.mp hd).1
      exact ⟨hmem d hdrop, hnone d (mem_reverse.mpr hdrop)⟩)
  refine hstarted.mono fun _ u ⟨hwork', hsome, hsame'⟩ => ?_
  apply h.recovered (hwork.trans hwork')
  intro d hd hperm hleaf
  by_cases hdrop : d ∈ (T.supervisor p).children.drop startIndex
  · exact hsome d (mem_filter.mpr ⟨hdrop, by simp [hperm]⟩) hleaf
  · have hdc : d ≠ c := by
      rintro rfl
      exact hdrop hc
    rw [hsame' d hd fun hin => hdrop (mem_filter.mp hin).1, hsame d hd fun hin => hdrop (mem_reverse.mp hin)]
    exact h.rest d hd hdc hperm hleaf

theorem applyStrategyFor_fine (h : Bereaved T s p c) (n : Nat) :
    Fine (fun _ t => Recovered T t) (applyStrategyFor T n p c s) := by
  unfold applyStrategyFor
  cases (T.supervisor p).strategy with
  | oneForOne =>
    refine (startChild_fine hnames (start_fine hnames n (T.height p)) h.sound h.lower h.mem h.gone).mono ?_
    intro _ t ⟨hwork, hsome, hsame⟩
    apply h.recovered hwork
    intro d hd hperm hleaf
    by_cases hdc : d = c
    · rw [hdc]
      exact hsome (hdc ▸ hleaf)
    · rw [hsame d hd hdc]
      exact h.rest d hd hdc hperm hleaf
  | oneForAll => exact restartAllFrom_fine hnames h n (by rw [drop_zero]; exact h.mem)
  | restForOne =>
    apply restartAllFrom_fine hnames h n
    have hlt : (T.supervisor p).children.idxOf c < (T.supervisor p).children.length := idxOf_lt_length_of_mem h.mem
    rw [drop_eq_getElem_cons hlt, getElem_idxOf hlt]
    exact mem_cons_self

theorem giveUp_fine {restart : Nat → Nat → Guest Unit}
    (hrestart : ∀ p c s, Bereaved T s p c → Fine (fun _ t => Recovered T t) (restart p c s)) (h : Bereaved T s p c) (n : Nat) :
    Fine (fun _ t => Recovered T t) (giveUp T restart n p s) := by
  have hset : Sound T (s.setState p .givenUp) := h.sound.of_same rfl rfl rfl rfl rfl rfl
  have hstopped := stopAll_fine hnames (stop_fine hnames n (T.height p)) hset (h.lower.setState .givenUp)
    (l := (T.supervisor p).children.reverse) fun d hd => mem_reverse.mp hd
  unfold giveUp
  show Fine _ (((T.supervisor p).children.reverse.forM (stopChild T (stop T n)) >>= _ : Guest Unit) (s.setState p .givenUp))
  refine hstopped.bind fun _ t ⟨hwork, hnone, _⟩ => ?_
  have hdown : t.state p ≠ .running := by
    rw [hwork.state]
    show (if p = p then SupervisorState.givenUp else _) ≠ _
    rw [if_pos rfl]
    exact nofun
  have hall : ∀ q, Steady T t q := by
    apply hwork.steady
    · intro q hq
      exact (h.others q hq).congr (if_neg hq) fun _ _ => rfl
    · exact ⟨fun hr => absurd hr hdown, fun _ d hd => hnone d (mem_reverse.mpr hd)⟩
  have hrecovered : Recovered T t := ⟨hwork.sound, hall⟩
  cases (T.supervisor p).parent with
  | none => exact hrecovered
  | some q =>
    show Fine _ (childSupervisorGaveUp T restart q p t)
    unfold childSupervisorGaveUp
    cases hfind : (T.supervisor q).children.find? fun c => (T.spec c).supervisorChild = some p with
    | none => exact hrecovered
    | some d =>
      have hd := mem_of_find?_eq_some hfind
      have hsub : (T.spec d).supervisorChild = some p := by simpa using List.find?_some hfind
      show Fine _ ((if t.state q = .running then _ else _ : Guest Unit) t)
      split
      next hrunning =>
        apply hrestart
        refine ⟨hwork.sound, hd, hrunning, ?_, fun e he _ hperm hleaf => (hall q).running hrunning e he hperm hleaf,
          fun x _ => hall x⟩
        cases hw : t.worker d with
        | none => rfl
        | some w =>
          rw [(hwork.sound.leaf d w hw).1] at hsub
          cases hsub
      next => exact hrecovered

theorem restartOrGiveUp_fine : ∀ n p c s, Bereaved T s p c →
    Fine (fun _ t => Recovered T t) (restartOrGiveUp T n p c s) := by
  intro n
  induction n with
  | zero => intro p c s _; exact rfl
  | succ n ih =>
    intro p c s h
    have htimes : ∀ clock times, Bereaved T ({ s with clock := clock }.setRestartTimes p times) p c := by
      intro clock times
      exact ⟨h.sound.of_same rfl rfl rfl rfl rfl rfl, h.mem, h.running, h.gone, h.rest,
        fun q hq => (h.others q hq).congr rfl fun _ _ => rfl⟩
    unfold restartOrGiveUp
    show Fine _ ((if _ then _ else _ : Guest Unit) { s with clock := fun n => s.clock (n + 1) })
    split
    next => exact giveUp_fine hnames ih (htimes _ _) n
    next => exact applyStrategyFor_fine hnames (htimes _ _) n

theorem childDied_fine (h : Consistent T s) (hsteady : ∀ q, Steady T s q) {w : Worker}
    (hc : c ∈ (T.supervisor p).children) (hw : s.worker c = some w) (hclean : ∀ a ∈ s.answers, a.id.isSome ∧ a.hookRaises = false)
    (hfreed : s.answers ≠ [] → ∀ id, id ≠ w.id → s.alive id = false → s.owners id = none) (n : Nat) :
    Fine (fun _ t => Recovered T t) (childDied T n p c (s.setOwner w.id none)) := by
  have hsound : Sound T (s.retire T c w) := by
    refine ⟨h.retire hnames hc hw, hclean, ?_⟩
    intro ha id hid
    simp only [State.retire] at hid ⊢
    split
    next => rfl
    next hne =>
      rw [if_neg hne] at hid
      exact hfreed ha id hne hid
  have hother : ∀ q, q ≠ p → Steady T (s.retire T c w) q := by
    intro q hq
    have hne : ∀ d ∈ (T.supervisor q).children, d ≠ c := by
      rintro d hd rfl
      exact hq (T.owner q p d hd hc)
    exact (hsteady q).congr rfl fun d hd => if_neg (hne d hd)
  have hgone : (s.retire T c w).worker c = none := if_pos rfl
  have hrest : ∀ d, d ≠ c → (s.retire T c w).worker d = s.worker d := fun d hd => if_neg hd
  have hact : childDied T n p c (s.setOwner w.id none) =
      (if s.state p ≠ .running then pure () else if (T.spec c).restart = .temporary then pure ()
        else restartOrGiveUp T n p c : Guest Unit) (s.retire T c w) := by
    have hterm : terminateWorker c (s.setOwner w.id none) = terminate w (s.setOwner w.id none) := by
      unfold terminateWorker
      rw [get_bind]
      rw [show (s.setOwner w.id none).worker c = some w from hw]
    exact bind_ok hterm
  rw [hact]
  split
  next hdown =>
    refine ⟨hsound, fun q => ?_⟩
    by_cases hq : q = p
    · rw [hq]
      refine ⟨fun hr => absurd hr hdown, fun _ d hd => ?_⟩
      by_cases hdc : d = c
      · rw [hdc]; exact hgone
      · rw [hrest d hdc]
        exact (hsteady p).down hdown d hd
    · exact hother q hq
  next hrunning =>
    have hrunning : s.state p = .running := Decidable.not_not.mp hrunning
    split
    next htemp =>
      refine ⟨hsound, fun q => ?_⟩
      by_cases hq : q = p
      · rw [hq]
        refine ⟨fun _ d hd hperm hleaf => ?_, fun hne => absurd hrunning hne⟩
        have hdc : d ≠ c := by
          rintro rfl
          rw [htemp] at hperm
          cases hperm
        rw [hrest d hdc]
        exact (hsteady p).running hrunning d hd hperm hleaf
      · exact hother q hq
    next =>
      apply restartOrGiveUp_fine hnames
      refine ⟨hsound, hc, hrunning, hgone, fun d hd hdc hperm hleaf => ?_, hother⟩
      rw [hrest d hdc]
      exact (hsteady p).running hrunning d hd hperm hleaf

end

namespace State

/-- No spawn fails, no hook raises. -/
def Clean (answers : List Answer) : Prop := ∀ a ∈ answers, a.id.isSome ∧ a.hookRaises = false

instance (answers : List Answer) : Decidable (Clean answers) :=
  inferInstanceAs (Decidable (∀ a ∈ answers, a.id.isSome ∧ a.hookRaises = false))

/-- The spawns of an event succeed without an error, and no id that is free belongs to a child
still, unless it is the one whose death is being handled. -/
def Meets (s : State) : Event → Prop
  | .start _ answers => Clean answers ∧ (answers ≠ [] → ∀ id, s.alive id = false → s.owners id = none)
  | .workerDied dead answers =>
    Clean answers ∧ (answers ≠ [] → ∀ id, id ≠ dead → s.alive id = false → s.owners id = none)
  | _ => True

def RunMeets (T : Tree) (n : Nat) (s : State) : List Event → Prop
  | [] => True
  | e :: es => s.Meets e ∧ ∀ t ∈ s.exec T n e, t.RunMeets T n es

structure Settled (T : Tree) (s : State) : Prop extends Consistent T s where
  steady : ∀ q, Steady T s q

variable {act : Guest Unit}

theorem handle_ok {answers : List Answer} (h : act { s with answers := answers } = .ok () t) :
    s.handle answers act = some t := by
  unfold handle
  rw [h]

theorem settled_of_handle {answers : List Answer} (h : s.handle answers act = some t)
    (hfine : Fine (fun _ t => Recovered T t) (act { s with answers := answers })) : t.Settled T := by
  unfold handle at h
  cases hact : act { s with answers := answers } with
  | ok a u =>
    rw [hact] at h hfine
    cases h
    exact ⟨hfine.1.toConsistent, hfine.2⟩
  | error e u =>
    rw [hact] at h hfine
    cases hfine
    cases h

theorem Settled.answers (h : s.Settled T) (answers : List Answer) : Settled T { s with answers := answers } :=
  ⟨⟨h.routed, h.known, h.held, h.bound, h.leaf⟩, fun q => (h.steady q).congr rfl fun _ _ => rfl⟩

theorem steady_of_beside (hlower : Lower T p t) (hp : Steady T t p) (hbeside : Beside T p s t) (h : ∀ q, Steady T s q) :
    ∀ q, Steady T t q := by
  intro q
  by_cases hq : q = p
  · rw [hq]; exact hp
  · by_cases hlt : T.height q < T.height p
    · exact hlower q hlt
    · exact (h q).congr (hbeside.state q (by omega) hq) fun c hc => hbeside.worker q c (by omega) hq hc

theorem Settled.exec (hnames : T.NamesDistinct) (h : s.Settled T) {n : Nat} {e : Event} (hm : s.Meets e)
    (hx : s.exec T n e = some t) : t.Settled T := by
  cases e with
  | start p answers =>
    have ha := h.answers answers
    have hsound : Sound T { s with answers := answers } := ⟨ha.toConsistent, hm.1, hm.2⟩
    apply settled_of_handle hx
    refine (start_fine hnames n (T.height p + 1) p _ (by omega) hsound (fun q _ => ha.steady q) (ha.steady p)).mono ?_
    intro _ t ht
    exact ⟨ht.sound, steady_of_beside ht.lower ht.steady ht.beside ha.steady⟩
  | stop p =>
    have ha := h.answers []
    have hsound : Sound T { s with answers := [] } := ⟨ha.toConsistent, fun a h => (nomatch h), fun h => absurd rfl h⟩
    apply settled_of_handle hx
    refine (stop_fine hnames n (T.height p + 1) p _ (by omega) hsound (fun q _ => ha.steady q)).mono ?_
    intro _ t ht
    exact ⟨ht.sound, steady_of_beside ht.lower ht.steady ht.beside ha.steady⟩
  | workerDied id answers =>
    have ha := h.answers answers
    have hx : s.handle answers (SupervisorRegistry.workerDied T n id) = some t := hx
    apply settled_of_handle hx
    unfold SupervisorRegistry.workerDied
    rw [get_bind]
    cases ho : s.owners id with
    | none =>
      refine ⟨⟨ha.toConsistent, hm.1, fun hne i hi => ?_⟩, ha.steady⟩
      by_cases hid : i = id
      · rw [hid]; exact ho
      · exact hm.2 hne i hid hi
    | some entry =>
      obtain ⟨p, c⟩ := entry
      obtain ⟨hc, w, hw, rfl⟩ := h.known id p c ho
      exact childDied_fine hnames ha.toConsistent ha.steady hc hw hm.1 hm.2 n
  | sendFails id =>
    cases hx
    exact ⟨⟨h.routed, h.known, h.held, h.bound, h.leaf⟩, fun q => (h.steady q).congr rfl fun _ _ => rfl⟩
  | spawn id =>
    have hx : (if s.alive id then none else some (s.setAlive id true)) = some t := hx
    split at hx
    next => cases hx
    next =>
      cases hx
      exact ⟨⟨h.routed, h.known, h.held, h.bound, h.leaf⟩, fun q => (h.steady q).congr rfl fun _ _ => rfl⟩
  | terminate id =>
    cases hx
    refine ⟨⟨h.routed, h.known, fun w hw => h.held w (mem_filter.mp hw).1, h.bound, h.leaf⟩,
      fun q => (h.steady q).congr rfl fun _ _ => rfl⟩

theorem Settled.run (hnames : T.NamesDistinct) {n : Nat} : ∀ {es : List Event} {s : State}, s.Settled T →
    s.RunMeets T n es → s.run T n es = some t → t.Settled T := by
  intro es
  induction es with
  | nil => intro s h _ hrun; cases hrun; exact h
  | cons e es ih =>
    intro s h hm hrun
    obtain ⟨u, hx, hrun⟩ := Option.bind_eq_some_iff.mp hrun
    exact ih (h.exec hnames hm.1 hx) (hm.2 u hx) hrun

theorem Initial.settled (h : s.Initial T) : s.Settled T := by
  refine ⟨⟨?_, ?_, ?_, ?_, ?_⟩, ?_⟩
  · intro p c w _ hw; rw [h.worker] at hw; cases hw
  · intro id p c ho; rw [h.owners] at ho; cases ho
  · rw [h.spawned]; intro w hw; cases hw
  · intro p c w _ _ hn; rw [h.names] at hn; cases hn
  · intro c w hw; rw [h.worker] at hw; cases hw
  · intro q
    refine ⟨fun hr => ?_, fun _ c _ => h.worker c⟩
    rw [h.state] at hr
    cases hr

theorem Settled.supervised (h : s.Settled T) : s.Supervised T := by
  refine ⟨?_, ?_, fun p hp => (h.steady p).down hp⟩
  · intro p hp c hc hperm hleaf
    obtain ⟨w, hw⟩ := Option.isSome_iff_exists.mp ((h.steady p).running hp c hc hperm hleaf)
    exact ⟨w, hw, h.routed p c w hc hw⟩
  · intro w hin
    obtain ⟨c, hc⟩ := h.held w hin
    refine ⟨c, hc, fun d hd => ?_⟩
    obtain ⟨-, p, hp⟩ := h.leaf c w hc
    obtain ⟨-, q, hq⟩ := h.leaf d w hd
    have hroute := (h.routed p c w hp hc).2
    rw [(h.routed q d w hq hd).2] at hroute
    cases hroute
    rfl

/-- Supervision holds after every event of a run in which no spawn fails, no hook raises and no id
is handed out that a child still owns. -/
theorem supervised_of_runMeets (hnames : T.NamesDistinct) {n : Nat} {es : List Event} (h : s.Initial T)
    (hmeets : s.RunMeets T n es) (hrun : s.run T n es = some t) : t.Supervised T :=
  (h.settled.run hnames hmeets hrun).supervised

def fresh : State where
  worker := fun _ => none
  startedAt := fun _ => none
  state := fun _ => .idle
  restartTimes := fun _ => []
  names := fun _ => none
  owners := fun _ => none
  alive := fun _ => false
  clock := fun _ => 0
  answers := []
  serial := 0
  spawned := []

theorem fresh_initial (T : Tree) : fresh.Initial T := ⟨fun _ => rfl, fun _ => rfl, fun _ => rfl, fun _ => rfl, rfl⟩

end State

def Tree.pair : Tree where
  supervisor := fun p => if p = 0 then ⟨.oneForOne, [0, 1], 3, 5, none⟩ else ⟨.oneForOne, [], 3, 5, none⟩
  spec := fun c => ⟨c, .permanent, none, false⟩
  height := fun _ => 0
  nodup := by
    intro p
    split <;> decide
  owner := by
    intro p q c hp hq
    split at hp
    next h =>
      split at hq
      next h' => rw [h, h']
      next => cases hq
    next => cases hp
  lower := fun _ _ _ _ h => nomatch h
  infrastructure := fun _ h => nomatch h

theorem Tree.pair_names : Tree.pair.NamesDistinct := fun _ _ _ _ _ _ _ _ h => h

namespace State

def pairUp : State :=
  (({ fresh with answers := [⟨some 1, false⟩, ⟨some 2, false⟩] }.setState 0 .running).setRestartTimes 0 []
    |>.adopt Tree.pair 0 0 1 [⟨some 2, false⟩]).adopt Tree.pair 0 1 2 []

theorem start_pair : fresh.exec Tree.pair 5 (.start 0 [⟨some 1, false⟩, ⟨some 2, false⟩]) = some pairUp := by
  let s : State := { fresh with answers := [⟨some 1, false⟩, ⟨some 2, false⟩] }
  have hact : start Tree.pair 5 0 s = .ok () pairUp := by
    have hchildren : (Tree.pair.supervisor 0).children = [0, 1] := rfl
    have hdown := start_down (T := Tree.pair) (n := 4) (show s.state 0 ≠ .running by decide)
    rw [hchildren, forM_cons, forM_cons] at hdown
    rw [hdown]
    refine (bind_ok (startChild_worker rfl rfl rfl rfl)).trans ?_
    exact bind_ok (startChild_worker rfl rfl rfl rfl)
  rw [exec]
  exact handle_ok hact

theorem pairUp_owned : ∀ id, pairUp.alive id = false → pairUp.owners id = none := by
  intro id h
  have h : (if id = 2 then true else if id = 1 then true else false) = false := h
  show (if id = 2 then _ else if id = 1 then _ else none : Option (Nat × Nat)) = none
  split at h
  next => cases h
  next h2 =>
    split at h
    next => cases h
    next h1 => rw [if_neg h2, if_neg h1]

/-- The first worker dies, and its notice is handled. -/
theorem supervised_of_runMeets_pair : ∃ t, fresh.run Tree.pair 5
    [.start 0 [⟨some 1, false⟩, ⟨some 2, false⟩], .workerDied 1 [⟨some 1, false⟩]] = some t ∧ t.Supervised Tree.pair := by
  have hsome : (pairUp.exec Tree.pair 5 (.workerDied 1 [⟨some 1, false⟩])).isSome = true := by decide +kernel
  obtain ⟨t, ht⟩ := Option.isSome_iff_exists.mp hsome
  have hrun : fresh.run Tree.pair 5
      [.start 0 [⟨some 1, false⟩, ⟨some 2, false⟩], .workerDied 1 [⟨some 1, false⟩]] = some t := by
    rw [run, start_pair, Option.bind_some, run, ht]
    rfl
  refine ⟨t, hrun, supervised_of_runMeets Tree.pair_names (fresh_initial _) ?_ hrun⟩
  refine ⟨⟨by decide, fun _ _ _ => rfl⟩, fun u hu => ?_⟩
  rw [start_pair] at hu
  cases Option.mem_some_iff.mp hu
  exact ⟨⟨by decide, fun _ id _ hfree => pairUp_owned id hfree⟩, fun _ _ => trivial⟩

/-- Both workers die; a send to the first one fails and frees its id; the notice of the second is
handled first, and its spawn is given that id. -/
theorem reused_id_orphans : ∃ t, fresh.run Tree.pair 5
    [.start 0 [⟨some 1, false⟩, ⟨some 2, false⟩], .sendFails 1, .workerDied 2 [⟨some 1, false⟩]] = some t ∧
    t.worker 0 = some ⟨0, 1⟩ ∧ t.owners 1 = some (0, 1) ∧ ¬ t.Supervised Tree.pair := by
  have htables : (fresh.run Tree.pair 5
      [.start 0 [⟨some 1, false⟩, ⟨some 2, false⟩], .sendFails 1, .workerDied 2 [⟨some 1, false⟩]]).map
      (fun t => (t.state 0, t.worker 0, t.owners 1)) = some (.running, some ⟨0, 1⟩, some (0, 1)) := by decide +kernel
  obtain ⟨t, ht, htables⟩ := Option.map_eq_some_iff.mp htables
  simp only [Prod.mk.injEq] at htables
  obtain ⟨hstate, hworker, howner⟩ := htables
  refine ⟨t, ht, hworker, howner, fun h => ?_⟩
  obtain ⟨w, hw, -, hroute⟩ := h.running 0 hstate 0 (by decide) rfl rfl
  rw [hworker] at hw
  cases hw
  rw [howner] at hroute
  cases hroute

end State

end WinArmVm.Supervision
