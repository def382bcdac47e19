import TypeAlgebra.Proofs.Application.Sound
import TypeAlgebra.Proofs.Stream.Values

/-! Runs of a session: any operations one after the other, on the values that were made before and on what is inside
them. A function may be one of those whose body is data, or any code that uses the session as the run itself does.
No run ever makes a value that does not fit its type. -/
namespace TypeAlgebra

/-- A session, the values that its operations have made so far, and the streams that they have read. -/
structure History where
  session : Session
  values : List Value
  streams : List Stream

namespace History

def start (policy : Policy) (marker : Char) : History := ⟨.start policy marker, [], []⟩

/-- The history as it goes on in a session. -/
def into (h : History) (s : Session) : History := { h with session := s }

def learn (h : History) (values : List Value) : History := { h with values := values ++ h.values }

/-- The history after an operation that may have made a value. -/
def after (h : History) (outcome : Outcome Value) : History :=
  (h.into outcome.2).learn outcome.1.toOption.toList

/-- The history after an operation that only reads the session. -/
def give (h : History) (result : Except Failure Value) : History := h.after (result, h.session)

def reading (h : History) (st : Stream) : History := { h with streams := st :: h.streams }

def Made (h : History) (value : Value) : Prop := value ∈ h.values ∨ ∃ st ∈ h.streams, value ∈ st.values

/-- The value was made, or is somewhere inside a value that was. -/
def Known (h : History) (value : Value) : Prop := ∃ made, h.Made made ∧ made.Nested value

/-- One operation, on types that are there and values that are known. -/
inductive Step (h : History) : History → Prop
  | setPolicy (policy : Policy) : Step h (h.into { h.session with policy })
  | refine {ty : Ty} (refinement : Refinement) (has : h.session.registry.Has ty) :
      Step h (h.into (h.session.refine ty refinement).2)
  | union {a b : Ty} (hasLeft : h.session.registry.Has a) (hasRight : h.session.registry.Has b) :
      Step h (h.into (h.session.union a b).2)
  | product {fields : List (String × Ty)} (has : ∀ field ∈ fields, h.session.registry.Has field.2) :
      Step h (h.into (h.session.product fields).2)
  | namedProduct (name : String) {fields : List (String × Ty)}
      (has : ∀ field ∈ fields, h.session.registry.Has field.2) :
      Step h (h.into (h.session.namedProduct name fields).2)
  | functionType {signature : List Ty} (has : ∀ ty ∈ signature, h.session.registry.Has ty) :
      Step h (h.into (h.session.functionType signature).2)
  | declare (name : String) {ty : Ty} (has : h.session.registry.Has ty) :
      Step h (h.into (h.session.declare name ty).2)
  | report (failure : Failure) : Step h (h.give (h.session.report failure))
  | make (ty : Ty) (source : Source) (known : ∀ value, source.Holds value → h.Known value) :
      Step h (h.give (h.session.make ty source))
  | record (ty : Ty) {fields : List (String × Value)} (known : ∀ field ∈ fields, h.Known field.2) :
      Step h (h.give (h.session.record ty fields))
  | field (attr : String) {value : Value} (known : h.Known value) : Step h (h.give (h.session.field value attr))
  | view {ty : Ty} {value viewed : Value} (known : h.Known value)
      (view : h.session.registry.view ty value = some viewed) : Step h (h.give (.ok viewed))
  | operate (op : Operator) {a b : Value} (knownLeft : h.Known a) (knownRight : h.Known b) :
      Step h (h.give (h.session.operate op a b))
  | function (name : String) {args : List Ty} {result : Ty} {body : Body}
      (has : ∀ ty ∈ args ++ [result], h.session.registry.Has ty) (known : ∀ value ∈ body.held, h.Known value) :
      Step h (h.after (h.session.function name args result body))
  | apply {function : Value} {args : List Value} (known : h.Known function)
      (knownArgs : ∀ arg ∈ args, h.Known arg) : Step h (h.after (h.session.apply function args))
  | applyOne {function arg : Value} (known : h.Known function) (knownArg : h.Known arg) :
      Step h (h.after (h.session.applyOne function arg))
  /-- An argument that is refused or is not the last one, whatever the body. -/
  | offer {function arg : Value} {result : Except Failure Value} {s : Session} (known : h.Known function)
      (knownArg : h.Known arg) (offer : h.session.offer function arg = .settled result s) :
      Step h (h.after (result, s))
  /-- What a body sees when it begins. What comes next in the run may be what the body does. -/
  | enter {function arg : Value} {lambda : Lambda} {args : List Value} {ty : Ty} (known : h.Known function)
      (knownArg : h.Known arg) (offer : h.session.offer function arg = .saturated lambda args ty) :
      Step h (h.learn args)
  | either {a b : Value} (knownLeft : h.Known a) (knownRight : h.Known b) : Step h (h.after (h.session.either a b))
  | overRecord {function : Value} (known : h.Known function) : Step h (h.after (h.session.overRecord function))
  | readRecord (layout : Layout) (text : String) : Step h (h.give (h.session.readRecord layout text))
  | stream (layout : Layout) : Step h (h.reading (.start layout))
  | restart {st : Stream} (mem : st ∈ h.streams) : Step h (h.reading st.restart)
  | push {st : Stream} (chunk : String) (mem : st ∈ h.streams) : Step h (h.reading (h.session.push st chunk).1)
  | close {st : Stream} (mem : st ∈ h.streams) : Step h (h.reading (h.session.close st).1)

/-- Any number of operations. -/
inductive Run : History → History → Prop
  | refl {h : History} : Run h h
  | step {h h' h'' : History} (run : Run h h') (step : h'.Step h'') : Run h h''
  /-- A call with the last argument that is missing. The body is a run of its own, from what is known and its
  arguments; it fails or gives a value that it knows, which is then checked against the result type. -/
  | call {h h' h'' : History} {function arg : Value} {lambda : Lambda} {args : List Value} {ty : Ty}
      {result : Except Failure Value} (run : Run h h') (known : h'.Known function) (knownArg : h'.Known arg)
      (offer : h'.session.offer function arg = .saturated lambda args ty) (body : Run (h'.learn args) h'')
      (given : ∀ value, result = .ok value → h''.Known value) :
      Run h (h''.after (Session.settle ty (result, h''.session)))

/-- All values that were made are sound, in a registry that there can be. -/
structure Sound (h : History) : Prop where
  reachable : h.session.registry.Reachable
  values : ∀ value ∈ h.values, value.Sound h.session.registry
  streams : ∀ st ∈ h.streams, st.Typed h.session.registry

variable {h h' : History}

theorem sound_start (policy : Policy) (marker : Char) : (start policy marker).Sound := ⟨.refl, nofun, nofun⟩

namespace Sound

theorem coherent (hs : h.Sound) : h.session.registry.Coherent := hs.reachable.coherent

theorem known (hs : h.Sound) {value : Value} (hvalue : h.Known value) : value.Sound h.session.registry := by
  obtain ⟨made, hmade | ⟨st, hst, hmade⟩, hnested⟩ := hvalue
  · exact (hs.values made hmade).nested hnested
  · exact ((hs.streams st hst).values made hmade).nested hnested

theorem offer (hs : h.Sound) {function arg : Value} (known : h.Known function) (knownArg : h.Known arg) :
    (h.session.offer function arg).Sound h.session :=
  Session.offer_sound hs.coherent (hs.known known) (hs.known knownArg)

theorem into (hs : h.Sound) {s : Session} (hleads : h.session.registry.Leads s.registry) : (h.into s).Sound where
  reachable := hs.reachable.trans hleads
  values value hvalue := (hs.values value hvalue).extends hs.coherent hleads.extends
  streams st hst := (hs.streams st hst).extends hs.coherent hleads.extends

theorem learn (hs : h.Sound) {values : List Value} (hvalues : ∀ value ∈ values, value.Sound h.session.registry) :
    (h.learn values).Sound where
  reachable := hs.reachable
  values := List.forall_mem_append.mpr ⟨hvalues, hs.values⟩
  streams := hs.streams

theorem after (hs : h.Sound) {outcome : Outcome Value} (ho : outcome.Sound h.session) : (h.after outcome).Sound := by
  refine (hs.into ho.leads).learn fun value hvalue => ho.value ?_
  cases hresult : outcome.1 with
  | error failure => simp [hresult, Except.toOption] at hvalue
  | ok made => simpa [hresult, Except.toOption, eq_comm] using hvalue

theorem reading (hs : h.Sound) {st : Stream} (hst : st.Typed h.session.registry) : (h.reading st).Sound where
  reachable := hs.reachable
  values := hs.values
  streams := List.forall_mem_cons.mpr ⟨hst, hs.streams⟩

end Sound

theorem adopt_leads {α : Type} {s : Session} {result : Except Failure (α × Registry)}
    (h : ∀ {a r}, result = .ok (a, r) → s.registry.Step r) : s.registry.Leads (s.adopt result).2.registry := by
  cases result with
  | error failure => exact .refl
  | ok made => exact .single (h rfl)

/-- What one operation leads to. -/
structure Grows (h h' : History) : Prop where
  sound : h'.Sound
  leads : h.session.registry.Leads h'.session.registry

theorem Step.grows (hs : h.Sound) (hstep : h.Step h') : h.Grows h' := by
  have hr := hs.coherent
  have hinto {s : Session} (hleads : h.session.registry.Leads s.registry) : h.Grows (h.into s) :=
    ⟨hs.into hleads, hleads⟩
  have hafter {outcome : Outcome Value} (ho : outcome.Sound h.session) : h.Grows (h.after outcome) :=
    ⟨hs.after ho, ho.leads⟩
  have hgive {result : Except Failure Value}
      (hresult : ∀ {value}, result = .ok value → value.Sound h.session.registry) : h.Grows (h.give result) :=
    hafter (.here hresult)
  have hreading {st : Stream} (hst : st.Typed h.session.registry) : h.Grows (h.reading st) :=
    ⟨hs.reading hst, .refl⟩
  cases hstep with
  | setPolicy policy => exact hinto .refl
  | refine refinement has => exact hinto (adopt_leads (.refine has))
  | union hasLeft hasRight => exact hinto (Registry.leads_union hasLeft hasRight)
  | product has => exact hinto (adopt_leads (.product has))
  | namedProduct name has => exact hinto (adopt_leads (.namedProduct has))
  | functionType has => exact hinto (.single (.functionType has))
  | declare name has =>
    refine hinto (adopt_leads fun heq => ?_)
    cases hdeclare : h.session.registry.declare name _ with
    | error failure => rw [hdeclare] at heq; contradiction
    | ok declared =>
      rw [hdeclare] at heq
      cases heq
      exact .declare has hdeclare
  | report failure => exact hgive (Session.report_sound hr)
  | make ty source known => exact hgive (Session.make_sound hr fun value hvalue => hs.known (known value hvalue))
  | record ty known => exact hgive (Session.record_sound hr fun field hfield => hs.known (known field hfield))
  | field attr known => exact hgive (Session.field_sound hr (hs.known known))
  | view known view =>
    refine hgive fun heq => ?_
    cases heq
    exact (Registry.view_sound hr (hs.known known) view).1
  | operate op knownLeft knownRight => exact hgive (Session.operate_sound hr)
  | function name has known =>
    exact hafter (Session.function_sound hr has fun value hvalue => hs.known (known value hvalue))
  | apply known knownArgs =>
    exact hafter (Session.apply_sound hr (hs.known known) fun arg harg => hs.known (knownArgs arg harg))
  | applyOne known knownArg => exact hafter (Session.applyOne_sound hr (hs.known known) (hs.known knownArg))
  | offer known knownArg offer =>
    have hoffer := hs.offer known knownArg
    rw [offer] at hoffer
    exact hafter hoffer
  | enter known knownArg offer =>
    have hoffer := hs.offer known knownArg
    rw [offer] at hoffer
    exact ⟨hs.learn hoffer.2, .refl⟩
  | either knownLeft knownRight => exact hafter (Session.either_sound hr (hs.known knownLeft) (hs.known knownRight))
  | overRecord known => exact hafter (Session.overRecord_sound hr (hs.known known))
  | readRecord layout text => exact hgive (Session.readRecord_sound hr)
  | stream layout => exact hreading (Stream.typed_start layout)
  | restart mem => exact hreading (Stream.typed_start _)
  | push chunk mem => exact hreading (Session.push_typed hr (hs.streams _ mem) chunk)
  | close mem => exact hreading (Session.close_typed hr (hs.streams _ mem))

/-- Whatever is run, functions' bodies included, makes sound values and forms types of types that are there. -/
theorem Run.grows (hrun : Run h h') (hs : h.Sound) : h.Grows h' := by
  induction hrun with
  | refl => exact ⟨hs, .refl⟩
  | step run step ih =>
    have hbefore := ih hs
    have hstep := step.grows hbefore.sound
    exact ⟨hstep.sound, hbefore.leads.trans hstep.leads⟩
  | @call h h' h'' function arg lambda args ty result run known knownArg offer body given ihRun ihBody =>
    have hbefore := ihRun hs
    have hoffer := hbefore.sound.offer known knownArg
    rw [offer] at hoffer
    have hbody := ihBody (hbefore.sound.learn hoffer.2)
    have hresult : Outcome.Sound h''.session (result, h''.session) :=
      .here fun heq => hbody.sound.known (given _ heq)
    have hsettled : (Session.settle ty (result, h''.session)).Sound h''.session :=
      Session.settle_sound hbody.sound.coherent hresult
    exact ⟨hbody.sound.after hsettled, hbefore.leads.trans (hbody.leads.trans hsettled.leads)⟩

end History
end TypeAlgebra
