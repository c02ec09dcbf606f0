import WinArmVm.TypeWalk

namespace WinArmVm.Types

open List Option

open Frontend (MethodNode Expr)

def isSend : Expr → Bool
  | .send _ _ _ _ _ => true
  | _ => false

section

variable (u : CharClass) (ctx : WalkCtx)

mutual

/-- Every message by its own receiver: in a cascade the first message goes to the cascade's receiver, each
further one to what the one before answers. -/
def ownType (scope : Scope) : Expr → Option ResolvedType
  | .selfRef _ => some (.named "Self")
  | .var name _ => varType u ctx scope name
  | .lit value _ => some (typeOfLiteral value)
  | .assign _ value _ => ownType scope value
  | .send receiver selector args isSuper _ => do
    let receiverType ← ownType scope receiver
    let argTypes ← ownTypes scope args
    sendType u ctx isSuper receiverType selector argTypes (sendSlot selector)
  | .cascade receiver segments _ => do
    let receiverType ← ownType scope receiver
    lastMessageType scope receiverType segments
  | .cascadeRcvr _ | .block _ _ _ _ | .ret _ _ => some .dynamic
  | .dynArray _ _ => some (.named "Array")

def ownTypes (scope : Scope) : List Expr → Option (List ResolvedType)
  | [] => some []
  | e :: es => do
    let t ← ownType scope e
    let ts ← ownTypes scope es
    some (t :: ts)

def messageType (scope : Scope) (receiverType : ResolvedType) : Expr → Option ResolvedType
  | .send receiver selector args isSuper _ => do
    let t ← messageType scope receiverType receiver
    let argTypes ← ownTypes scope args
    sendType u ctx isSuper t selector argTypes (cascadeSlot selector)
  | _ => some receiverType

def lastMessageType (scope : Scope) (receiverType : ResolvedType) : List Expr → Option ResolvedType
  | [] => some .dynamic
  | [e] => if isSend e then messageType scope receiverType e else some .dynamic
  | _ :: e :: es => lastMessageType scope receiverType (e :: es)

end

mutual

def sendCalls (scope : Scope) : Expr → Option (List SendCall)
  | .selfRef _ | .var _ _ | .lit _ _ | .cascadeRcvr _ => some []
  | .assign _ value _ => sendCalls scope value
  | .send receiver selector args isSuper span => do
    let ofReceiver ← sendCalls scope receiver
    let ofArgs ← sendCallsAll scope args
    let receiverType ← ownType u ctx scope receiver
    let argTypes ← ownTypes u ctx scope args
    some (ofReceiver ++ ofArgs ++
      [⟨.send receiver selector args isSuper span, isSuper, receiverType, selector, argTypes⟩])
  | .cascade receiver segments _ => do
    let ofReceiver ← sendCalls scope receiver
    let receiverType ← ownType u ctx scope receiver
    let rest ← segmentCalls scope receiverType segments
    some (ofReceiver ++ rest)
  | .dynArray elems _ => sendCallsAll scope elems
  | .block params temps body _ => sendCallsAll (untypedFrame (params ++ temps) :: scope) body
  | .ret value _ => sendCalls scope value

def sendCallsAll (scope : Scope) : List Expr → Option (List SendCall)
  | [] => some []
  | e :: es => do
    let calls ← sendCalls scope e
    let rest ← sendCallsAll scope es
    some (calls ++ rest)

def messageCalls (scope : Scope) (receiverType : ResolvedType) : Expr → Option (List SendCall)
  | .send receiver selector args isSuper span => do
    let before ← messageCalls scope receiverType receiver
    let ofArgs ← sendCallsAll scope args
    let t ← messageType u ctx scope receiverType receiver
    let argTypes ← ownTypes u ctx scope args
    some (before ++ ofArgs ++ [⟨.send receiver selector args isSuper span, isSuper, t, selector, argTypes⟩])
  | _ => some []

def segmentCalls (scope : Scope) (receiverType : ResolvedType) : List Expr → Option (List SendCall)
  | [] => some []
  | e :: es => do
    let calls ← messageCalls scope receiverType e
    let rest ← segmentCalls scope receiverType es
    some (calls ++ rest)

end

end

mutual

def Direct : Expr → Prop
  | .assign _ value _ => Direct value
  | .send receiver _ args _ _ => Direct receiver ∧ DirectAll args
  | .cascade receiver segments _ => Direct receiver ∧ DirectSegments segments
  | .dynArray elems _ => DirectAll elems
  | .block _ _ body _ => DirectAll body
  | .ret value _ => Direct value
  | .selfRef _ | .var _ _ | .lit _ _ | .cascadeRcvr _ => True

def DirectAll : List Expr → Prop
  | [] => True
  | e :: es => Direct e ∧ DirectAll es

def DirectSegments : List Expr → Prop
  | [] => True
  | .send receiver _ args _ _ :: es => isSend receiver = false ∧ DirectAll args ∧ DirectSegments es
  | _ :: es => DirectSegments es

end

variable {u : CharClass} {ctx : WalkCtx} {receiverType : ResolvedType} {e : Expr} {es : List Expr} {scope : Scope}

theorem messageType_of_not_send (h : isSend e = false) :
    messageType u ctx scope receiverType e = some receiverType := by
  cases e with
  | send => cases h
  | _ =>
    rw [messageType]
    simp

theorem messageCalls_of_not_send (h : isSend e = false) : messageCalls u ctx scope receiverType e = some [] := by
  cases e with
  | send => cases h
  | _ =>
    rw [messageCalls]
    simp

mutual

theorem synthesize_of_direct (scope : Scope) (e : Expr) (h : Direct e) :
    synthesize u ctx scope e = ownType u ctx scope e := by
  cases e with
  | assign name value span =>
    rw [synthesize, ownType, synthesize_of_direct scope value (by simpa [Direct] using h)]
  | send receiver selector args isSuper span =>
    rw [synthesize, ownType, synthesize_of_direct scope receiver h.1, synthesizeAll_of_direct scope args h.2]
  | cascade receiver segments span =>
    rw [synthesize, ownType, synthesize_of_direct scope receiver h.1]
    cases ownType u ctx scope receiver with
    | none => rfl
    | some t => exact synthesizeLast_of_direct scope t segments h.2
  | _ => simp only [synthesize, ownType]

theorem synthesizeAll_of_direct (scope : Scope) (es : List Expr) (h : DirectAll es) :
    synthesizeAll u ctx scope es = ownTypes u ctx scope es := by
  cases es with
  | nil => simp only [synthesizeAll, ownTypes]
  | cons e es =>
    rw [synthesizeAll, ownTypes, synthesize_of_direct scope e h.1, synthesizeAll_of_direct scope es h.2]

theorem synthesizeLast_of_direct (scope : Scope) (receiverType : ResolvedType) (es : List Expr) (h : DirectSegments es) :
    synthesizeLast u ctx scope receiverType es = lastMessageType u ctx scope receiverType es := by
  cases es with
  | nil => simp only [synthesizeLast, lastMessageType]
  | cons e es =>
    cases es with
    | nil =>
      cases e with
      | send receiver selector args isSuper span =>
        simp only [synthesizeLast, lastMessageType, messageType, isSend, if_true, messageType_of_not_send h.1,
          synthesizeAll_of_direct scope args h.2.1]
        rfl
      | _ => simp [synthesizeLast, lastMessageType, isSend]
    | cons e' es =>
      have hrest : DirectSegments (e' :: es) := by
        cases e with
        | send => exact h.2.2
        | _ => simpa only [DirectSegments] using h
      rw [synthesizeLast, lastMessageType, synthesizeLast_of_direct scope receiverType (e' :: es) hrest]

end

theorem walkSend_calls {node : Expr} {isSuper : Bool} {selector : String}
    {argTypes : List ResolvedType} {slot : String} {w : Walked}
    (h : walkSend u ctx node isSuper receiverType selector argTypes slot = some w) :
    w.calls = [⟨node, isSuper, receiverType, selector, argTypes⟩] := by
  obtain ⟨r, _, rfl⟩ := map_eq_some_iff.mp h
  rfl

mutual

theorem walkExpr_of_direct (scope : Scope) (e : Expr) {w : Walked} (h : Direct e)
    (hw : walkExpr u ctx scope e = some w) : sendCalls u ctx scope e = some w.calls := by
  cases e with
  | assign name value span =>
    simp only [walkExpr, bind_eq_bind, bind_eq_some_iff] at hw
    obtain ⟨inner, hi, _, _, _, _, hw⟩ := hw
    cases hw
    rw [sendCalls, walkExpr_of_direct scope value (by simpa only [Direct] using h) hi]
    simp
  | send receiver selector args isSuper span =>
    simp only [walkExpr, bind_eq_bind, bind_eq_some_iff] at hw
    obtain ⟨inner, hi, ofArgs, ha, receiverType, ht, argTypes, hts, own, ho, hw⟩ := hw
    cases hw
    rw [synthesize_of_direct scope receiver h.1] at ht
    rw [synthesizeAll_of_direct scope args h.2] at hts
    rw [sendCalls, walkExpr_of_direct scope receiver h.1 hi, walkAll_of_direct scope args h.2 ha, ht, hts]
    simp [walkSend_calls ho]
  | cascade receiver segments span =>
    simp only [walkExpr, bind_eq_bind, bind_eq_some_iff] at hw
    obtain ⟨inner, hi, receiverType, ht, rest, hr, hw⟩ := hw
    cases hw
    rw [synthesize_of_direct scope receiver h.1] at ht
    rw [sendCalls, walkExpr_of_direct scope receiver h.1 hi, ht]
    simp [walkSegments_of_direct scope receiverType segments h.2 hr]
  | dynArray elems span =>
    rw [walkExpr] at hw
    rw [sendCalls, walkAll_of_direct scope elems (by simpa only [Direct] using h) hw]
  | block params temps body span =>
    rw [walkExpr] at hw
    rw [sendCalls, walkAll_of_direct _ body (by simpa only [Direct] using h) hw]
  | ret value span =>
    simp only [walkExpr, bind_eq_bind, bind_eq_some_iff] at hw
    obtain ⟨inner, hi, _, _, hw⟩ := hw
    cases hw
    rw [sendCalls, walkExpr_of_direct scope value (by simpa only [Direct] using h) hi]
    simp
  | _ =>
    cases hw
    simp [sendCalls]

theorem walkAll_of_direct (scope : Scope) (es : List Expr) {w : Walked} (h : DirectAll es)
    (hw : walkAll u ctx scope es = some w) : sendCallsAll u ctx scope es = some w.calls := by
  cases es with
  | nil =>
    rw [walkAll] at hw
    cases hw
    simp [sendCallsAll]
  | cons e es =>
    simp only [walkAll, bind_eq_bind, bind_eq_some_iff] at hw
    obtain ⟨we, he, rest, hr, hw⟩ := hw
    cases hw
    rw [sendCallsAll, walkExpr_of_direct scope e h.1 he, walkAll_of_direct scope es h.2 hr]
    simp

theorem walkSegments_of_direct (scope : Scope) (receiverType : ResolvedType) (es : List Expr) {w : Walked}
    (h : DirectSegments es) (hw : walkSegments u ctx scope receiverType es = some w) :
    segmentCalls u ctx scope receiverType es = some w.calls := by
  cases es with
  | nil =>
    rw [walkSegments] at hw
    cases hw
    simp [segmentCalls]
  | cons e es =>
    cases e with
    | send receiver selector args isSuper span =>
      simp only [walkSegments, bind_eq_bind, bind_eq_some_iff] at hw
      obtain ⟨ofArgs, ha, argTypes, hts, own, ho, rest, hr, hw⟩ := hw
      cases hw
      rw [synthesizeAll_of_direct scope args h.2.1] at hts
      rw [segmentCalls, messageCalls, messageCalls_of_not_send h.1, walkAll_of_direct scope args h.2.1 ha,
        messageType_of_not_send h.1, hts, walkSegments_of_direct scope receiverType es h.2.2 hr]
      simp [walkSend_calls ho]
    | _ =>
      rw [segmentCalls, messageCalls_of_not_send rfl, walkSegments_of_direct scope receiverType es h hw]
      simp

end

mutual

theorem walkExpr_length (scope : Scope) (e : Expr) {w : Walked} {calls : List SendCall}
    (hw : walkExpr u ctx scope e = some w) (hc : sendCalls u ctx scope e = some calls) :
    w.calls.length ≤ calls.length ∧ (w.calls.length = calls.length → Direct e) := by
  cases e with
  | assign name value span =>
    simp only [walkExpr, bind_eq_bind, bind_eq_some_iff] at hw
    obtain ⟨inner, hi, _, _, _, _, hw⟩ := hw
    cases hw
    rw [sendCalls] at hc
    simpa [Direct] using walkExpr_length scope value hi hc
  | send receiver selector args isSuper span =>
    simp only [walkExpr, bind_eq_bind, bind_eq_some_iff] at hw
    obtain ⟨inner, hi, ofArgs, ha, _, _, _, _, own, ho, hw⟩ := hw
    cases hw
    simp only [sendCalls, bind_eq_bind, bind_eq_some_iff] at hc
    obtain ⟨cr, hcr, cas, hca, _, _, _, _, hc⟩ := hc
    cases hc
    obtain ⟨hr, hr'⟩ := walkExpr_length scope receiver hi hcr
    obtain ⟨has, has'⟩ := walkAll_length scope args ha hca
    simp only [Walked.append_calls, walkSend_calls ho, length_append, length_singleton, Direct]
    exact ⟨by omega, fun he => ⟨hr' (by omega), has' (by omega)⟩⟩
  | cascade receiver segments span =>
    simp only [walkExpr, bind_eq_bind, bind_eq_some_iff] at hw
    obtain ⟨inner, hi, _, _, rest, hrest, hw⟩ := hw
    cases hw
    simp only [sendCalls, bind_eq_bind, bind_eq_some_iff] at hc
    obtain ⟨cr, hcr, _, _, cs, hcs, hc⟩ := hc
    cases hc
    obtain ⟨hr, hr'⟩ := walkExpr_length scope receiver hi hcr
    obtain ⟨hs, hs'⟩ := walkSegments_length scope segments hrest hcs
    simp only [Walked.append_calls, length_append, Direct]
    exact ⟨by omega, fun he => ⟨hr' (by omega), hs' (by omega)⟩⟩
  | dynArray elems span =>
    rw [walkExpr] at hw
    rw [sendCalls] at hc
    simpa [Direct] using walkAll_length scope elems hw hc
  | block params temps body span =>
    rw [walkExpr] at hw
    rw [sendCalls] at hc
    simpa [Direct] using walkAll_length _ body hw hc
  | ret value span =>
    simp only [walkExpr, bind_eq_bind, bind_eq_some_iff] at hw
    obtain ⟨inner, hi, _, _, hw⟩ := hw
    cases hw
    rw [sendCalls] at hc
    simpa [Direct] using walkExpr_length scope value hi hc
  | _ =>
    cases hw
    simp [Direct]

theorem walkAll_length (scope : Scope) (es : List Expr) {w : Walked} {calls : List SendCall}
    (hw : walkAll u ctx scope es = some w) (hc : sendCallsAll u ctx scope es = some calls) :
    w.calls.length ≤ calls.length ∧ (w.calls.length = calls.length → DirectAll es) := by
  cases es with
  | nil =>
    rw [walkAll] at hw
    cases hw
    simp [DirectAll]
  | cons e es =>
    simp only [walkAll, bind_eq_bind, bind_eq_some_iff] at hw
    obtain ⟨we, he, rest, hr, hw⟩ := hw
    cases hw
    simp only [sendCallsAll, bind_eq_bind, bind_eq_some_iff] at hc
    obtain ⟨ce, hce, crest, hcr, hc⟩ := hc
    cases hc
    obtain ⟨h, h'⟩ := walkExpr_length scope e he hce
    obtain ⟨hs, hs'⟩ := walkAll_length scope es hr hcr
    simp only [Walked.append_calls, length_append, DirectAll]
    exact ⟨by omega, fun he => ⟨h' (by omega), hs' (by omega)⟩⟩

theorem walkSegments_length (scope : Scope) {receiverType receiverType' : ResolvedType} (es : List Expr) {w : Walked}
    {calls : List SendCall} (hw : walkSegments u ctx scope receiverType es = some w)
    (hc : segmentCalls u ctx scope receiverType' es = some calls) :
    w.calls.length ≤ calls.length ∧ (w.calls.length = calls.length → DirectSegments es) := by
  cases es with
  | nil =>
    rw [walkSegments] at hw
    cases hw
    simp [DirectSegments]
  | cons e es =>
    simp only [segmentCalls, bind_eq_bind, bind_eq_some_iff] at hc
    obtain ⟨ce, hce, crest, hcr, hc⟩ := hc
    cases hc
    cases e with
    | send receiver selector args isSuper span =>
      simp only [walkSegments, bind_eq_bind, bind_eq_some_iff] at hw
      obtain ⟨ofArgs, ha, _, _, own, ho, rest, hr, hw⟩ := hw
      cases hw
      simp only [messageCalls, bind_eq_bind, bind_eq_some_iff] at hce
      obtain ⟨before, hb, cas, hca, _, _, _, _, hce⟩ := hce
      cases hce
      obtain ⟨has, has'⟩ := walkAll_length scope args ha hca
      obtain ⟨hs, hs'⟩ := walkSegments_length scope es hr hcr
      have hbefore : isSend receiver = true → 0 < before.length := by
        intro hsend
        cases receiver with
        | send =>
          simp only [messageCalls, bind_eq_bind, bind_eq_some_iff] at hb
          obtain ⟨_, _, _, _, _, _, _, _, hb⟩ := hb
          cases hb
          simp
        | _ => cases hsend
      simp only [Walked.append_calls, walkSend_calls ho, length_append, length_singleton, DirectSegments]
      refine ⟨by omega, fun he => ⟨?_, has' (by omega), hs' (by omega)⟩⟩
      by_contra hsend
      have := hbefore (by simpa using hsend)
      omega
    | _ =>
      rw [messageCalls_of_not_send rfl] at hce
      cases hce
      simp only [DirectSegments]
      simpa using walkSegments_length scope es hw hcr

end

/-- An argument of a cascade message or of a message before it in its chain. -/
inductive MessageArg (a : Expr) : Expr → Prop
  | arg {receiver : Expr} {selector : String} {args : List Expr} {isSuper : Bool} {span : Frontend.Span} (h : a ∈ args) :
      MessageArg a (.send receiver selector args isSuper span)
  | before {receiver : Expr} {selector : String} {args : List Expr} {isSuper : Bool} {span : Frontend.Span}
      (h : MessageArg a receiver) : MessageArg a (.send receiver selector args isSuper span)

/-- The expressions of a tree. -/
inductive Within (e : Expr) : Expr → Prop
  | self : Within e e
  | value {name : String} {value : Expr} {span : Frontend.Span} (h : Within e value) : Within e (.assign name value span)
  | receiver {receiver : Expr} {selector : String} {args : List Expr} {isSuper : Bool} {span : Frontend.Span}
      (h : Within e receiver) : Within e (.send receiver selector args isSuper span)
  | arg {receiver a : Expr} {selector : String} {args : List Expr} {isSuper : Bool} {span : Frontend.Span}
      (ha : a ∈ args) (h : Within e a) : Within e (.send receiver selector args isSuper span)
  | cascadeReceiver {receiver : Expr} {segments : List Expr} {span : Frontend.Span} (h : Within e receiver) :
      Within e (.cascade receiver segments span)
  | messageArg {receiver m a : Expr} {segments : List Expr} {span : Frontend.Span} (hm : m ∈ segments)
      (ha : MessageArg a m) (h : Within e a) : Within e (.cascade receiver segments span)
  | elem {a : Expr} {elems : List Expr} {span : Frontend.Span} (ha : a ∈ elems) (h : Within e a) :
      Within e (.dynArray elems span)
  | stmt {a : Expr} {params temps : List String} {body : List Expr} {span : Frontend.Span} (ha : a ∈ body)
      (h : Within e a) : Within e (.block params temps body span)
  | returned {value : Expr} {span : Frontend.Span} (h : Within e value) : Within e (.ret value span)

theorem DirectAll.of_mem (h : DirectAll es) (he : e ∈ es) : Direct e := by
  induction es with
  | nil => cases he
  | cons a es ih =>
    rcases mem_cons.mp he with rfl | he
    · exact h.1
    · exact ih h.2 he

theorem DirectSegments.of_mem {m a : Expr} (h : DirectSegments es) (hm : m ∈ es) (ha : MessageArg a m) : Direct a := by
  induction es with
  | nil => cases hm
  | cons e es ih =>
    cases e with
    | send receiver selector args isSuper span =>
      rcases mem_cons.mp hm with rfl | hm
      · cases ha with
        | arg ha => exact h.2.1.of_mem ha
        | before ha =>
          cases ha with
          | arg => cases h.1
          | before => cases h.1
      · exact ih h.2.2 hm
    | _ =>
      rcases mem_cons.mp hm with rfl | hm
      · cases ha
      · exact ih h hm

theorem Direct.within {e e' : Expr} (h : Direct e') (hw : Within e e') : Direct e := by
  induction hw with
  | self => exact h
  | value _ ih => exact ih (by simpa only [Direct] using h)
  | receiver _ ih =>
    exact ih h.1
  | arg ha _ ih =>
    exact ih (h.2.of_mem ha)
  | cascadeReceiver _ ih =>
    exact ih h.1
  | messageArg hm ha _ ih =>
    exact ih (h.2.of_mem hm ha)
  | elem ha _ ih =>
    exact ih (h.of_mem ha)
  | stmt ha _ ih =>
    exact ih (h.of_mem ha)
  | returned _ ih => exact ih (by simpa only [Direct] using h)

/-- A body's walk passes every send to the check once, with the type of its own receiver, and every
expression in it has the type of its own messages, exactly when no cascade message is a chain. -/
theorem walkAll_sends_iff (u : CharClass) (ctx : WalkCtx) (scope : Scope) (body : List Expr) (w : Walked)
    (hw : walkAll u ctx scope body = some w) :
    ((∃ calls, sendCallsAll u ctx scope body = some calls ∧ w.calls.Perm calls) ∧
      ∀ stmt ∈ body, ∀ e, Within e stmt → ∀ inner, synthesize u ctx inner e = ownType u ctx inner e) ↔
    DirectAll body := by
  constructor
  · intro ⟨⟨calls, hc, hp⟩, _⟩
    exact (walkAll_length scope body hw hc).2 hp.length_eq
  · intro h
    constructor
    · exact ⟨w.calls, walkAll_of_direct scope body h hw, List.Perm.refl _⟩
    · intro stmt hs e he inner
      exact synthesize_of_direct inner e ((h.of_mem hs).within he)

def emptyCtx : WalkCtx := ⟨⟨∅⟩, "Foo", false, "bar", .dynamic⟩

/-- `3 foo; bar`. -/
def plainCascade : Expr := .cascade (.lit (.int 3) ⟨1, 1⟩)
    [.send (.cascadeRcvr ⟨1, 1⟩) "foo" [] false ⟨1, 3⟩, .send (.cascadeRcvr ⟨1, 1⟩) "bar" [] false ⟨1, 8⟩] ⟨1, 1⟩

theorem walkAll_plain : ∃ w calls, walkAll asciiClass emptyCtx [] [plainCascade] = some w ∧
    sendCallsAll asciiClass emptyCtx [] [plainCascade] = some calls ∧ w.calls.Perm calls := by
  have hw : ∃ w, walkAll asciiClass emptyCtx [] [plainCascade] = some w := ⟨_, rfl⟩
  obtain ⟨w, hw⟩ := hw
  have hd : DirectAll [plainCascade] := by simp [plainCascade, DirectAll, Direct, DirectSegments, isSend]
  obtain ⟨⟨calls, hc, hp⟩, _⟩ := (walkAll_sends_iff asciiClass emptyCtx [] [plainCascade] w hw).mpr hd
  exact ⟨w, calls, hw, hc, hp⟩

/-- `3 foo; bar baz`. -/
def chainedCascade : Expr := .cascade (.lit (.int 3) ⟨1, 1⟩) [.send (.cascadeRcvr ⟨1, 1⟩) "foo" [] false ⟨1, 3⟩,
      .send (.send (.cascadeRcvr ⟨1, 1⟩) "bar" [] false ⟨1, 8⟩) "baz" [] false ⟨1, 12⟩] ⟨1, 1⟩

theorem walkAll_chained : ∃ w calls, walkAll asciiClass emptyCtx [] [chainedCascade] = some w ∧
    sendCallsAll asciiClass emptyCtx [] [chainedCascade] = some calls ∧ w.calls.length = 2 ∧ calls.length = 3 :=
  ⟨_, _, rfl, rfl, rfl, rfl⟩

end WinArmVm.Types
