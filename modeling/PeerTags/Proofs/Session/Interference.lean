import PeerTags.Proofs.Session.View
/-! Tags that are set directly and delivery tags do not interfere. Each kind has inputs of
its own, and what a session shows of the kind depends on them alone. Without support for
decay there are no delivery tags, and the others are what they would be with it. -/
namespace PeerTags

/-- The names of delivery tags, and all that begin like them, are not those of mesh tags. -/
theorem TagName.ne_mesh_of_deliveries (rest topic : String) : "pubsub-deliveries" ++ rest ≠ mesh topic := by
  intro same
  unfold mesh at same
  have chars := congrArg String.toList same
  simp only [String.toList_append, String.reduceToList] at chars
  simp at chars

namespace Session

namespace Input

/-- What bears on tags that are set and cleared directly. -/
def isStatic : Input → Bool
  | .event (.connect _) | .event (.graft _ _) | .event (.prune _ _) | .rejectTags _ => true
  | _ => false

/-- What bears on delivery tags. -/
def isDelivery : Input → Bool
  | .event (.join _) | .event (.leave _) | .event (.deliver _) | .advance _ | .rejectRegistrations _ => true
  | _ => false

/-- The calls to set or clear a tag that an input leads to. -/
def directCalls (config : Config) (direct : List Peer) : Input → List Call
  | .event (.connect peer) => if peer ∈ direct then [.tag peer TagName.direct config.directPeerValue] else []
  | .event (.graft peer topic) => [.tag peer (TagName.mesh topic) config.meshPeerValue]
  | .event (.prune peer topic) => [.untag peer (TagName.mesh topic)]
  | _ => []

theorem flatMap_directCalls (config : Config) (direct : List Peer) (inputs : List Input) :
    inputs.flatMap (directCalls config direct) = (inputs.filter isStatic).flatMap (directCalls config direct) := by
  induction inputs with
  | nil => rfl
  | cons input inputs ih =>
      cases static : input.isStatic with
      | true => rw [List.filter_cons_of_pos static, List.flatMap_cons, List.flatMap_cons, ih]
      | false =>
          have none : input.directCalls config direct = [] := by
            cases input with
            | event e =>
                cases e with
                | connect peer => cases static
                | graft peer topic => cases static
                | prune peer topic => cases static
                | _ => rfl
            | _ => rfl
          rw [List.filter_cons_of_neg (by simp [static]), List.flatMap_cons, none, List.nil_append, ih]

end Input

namespace View

/-- Of what is shown, all that setting and clearing tags directly comes to. -/
@[ext] structure Static where
  rejectsTags : Bool
  mesh : Peer → String → Option Amount
  directTagged : Nat
  meshTagged : Nat
  meshUntagged : Nat
  tagFailures : Nat

def static (v : View) : Static :=
  ⟨v.rejectsTags, v.mesh, v.tally.directTagged, v.tally.meshTagged, v.tally.meshUntagged, v.tally.tagFailures⟩

/-- Of what is shown, all that delivery tags come to. -/
@[ext] structure Decaying where
  supportsDecay : Bool
  rejectsRegistrations : Bool
  tracking : String → Bool
  registered : String → Bool
  score : Peer → String → Option Int

def decaying (v : View) : Decaying := ⟨v.supportsDecay, v.rejectsRegistrations, v.tracking, v.registered, v.score⟩

variable {config : Config} {direct : List Peer}

/-- A part of what is shown that some inputs leave alone, and on which what the others leave of
it depends, is the same after two runs of the same of these others. -/
theorem run_part_eq (config : Config) (direct : List Peer) {ρ : Type} {part : View → ρ} {bears : Input → Bool}
    (skip : ∀ v input, bears input = false → part (v.take config direct input) = part v)
    (step : ∀ v w input, bears input = true → part v = part w →
      part (v.take config direct input) = part (w.take config direct input))
    {v w : View} (same : part v = part w) {inputs inputs' : List Input}
    (filtered : inputs.filter bears = inputs'.filter bears) :
    part (v.run config direct inputs) = part (w.run config direct inputs') := by
  have only (inputs : List Input) {v w : View} (same : part v = part w) :
      part (v.run config direct inputs) = part (w.run config direct (inputs.filter bears)) := by
    induction inputs generalizing v w with
    | nil => exact same
    | cons input inputs ih =>
        cases bearing : bears input with
        | true =>
            rw [List.filter_cons_of_pos bearing]
            exact ih (step v w input bearing same)
        | false =>
            rw [List.filter_cons_of_neg (by simp [bearing])]
            exact ih ((skip v input bearing).trans same)
  rw [only inputs same, filtered]
  exact (only inputs' rfl).symm

theorem tallied_of_not_static (direct : List Peer) (v : View) {e : Event} (other : (Input.event e).isStatic = false) :
    (v.tallied direct e).directTagged = 0 ∧ (v.tallied direct e).meshTagged = 0 ∧
      (v.tallied direct e).meshUntagged = 0 ∧ (v.tallied direct e).tagFailures = 0 := by
  cases e with
  | connect peer => cases other
  | graft peer topic => cases other
  | prune peer topic => cases other
  | join topic =>
      simp only [tallied]
      split
      · exact ⟨rfl, rfl, rfl, rfl⟩
      · split <;> exact ⟨rfl, rfl, rfl, rfl⟩
  | leave topic =>
      simp only [tallied]
      split <;> exact ⟨rfl, rfl, rfl, rfl⟩
  | _ => exact ⟨rfl, rfl, rfl, rfl⟩

theorem static_skip (v : View) (input : Input) (other : input.isStatic = false) :
    (v.take config direct input).static = v.static := by
  cases input with
  | event e =>
      have silent (peer : Peer) (topic : String) :
          Solo.write? config direct peer (TagName.mesh topic) e = none := by
        cases e with
        | connect peer => cases other
        | graft peer topic => cases other
        | prune peer topic => cases other
        | _ => rfl
      obtain ⟨directTagged, meshTagged, meshUntagged, tagFailures⟩ := v.tallied_of_not_static direct other
      apply Static.ext
      · rfl
      · funext peer topic
        show (if v.rejectsTags then _ else _) = _
        rw [silent, Option.getD_none, ite_self]
        rfl
      · exact congrArg (v.tally.directTagged + ·) directTagged
      · exact congrArg (v.tally.meshTagged + ·) meshTagged
      · exact congrArg (v.tally.meshUntagged + ·) meshUntagged
      · exact congrArg (v.tally.tagFailures + ·) tagFailures
  | advance intervals => rfl
  | rejectTags on => cases other
  | rejectRegistrations on => rfl

theorem static_step (v w : View) (input : Input) (own : input.isStatic = true) (same : v.static = w.static) :
    (v.take config direct input).static = (w.take config direct input).static := by
  have rejects : v.rejectsTags = w.rejectsTags := congrArg Static.rejectsTags same
  have mesh : v.mesh = w.mesh := congrArg Static.mesh same
  cases input with
  | event e =>
      have counted : v.tallied direct e = w.tallied direct e := by
        cases e with
        | connect peer => simp only [tallied, settled, rejects]
        | graft peer topic => simp only [tallied, settled, rejects]
        | prune peer topic => simp only [tallied, settled, rejects]
        | _ => cases own
      apply Static.ext
      · exact rejects
      · show (fun peer topic => if v.rejectsTags then v.mesh peer topic else _) = _
        rw [rejects, mesh]
        rfl
      · exact congrArg₂ (· + ·) (congrArg Static.directTagged same) (congrArg Tally.directTagged counted)
      · exact congrArg₂ (· + ·) (congrArg Static.meshTagged same) (congrArg Tally.meshTagged counted)
      · exact congrArg₂ (· + ·) (congrArg Static.meshUntagged same) (congrArg Tally.meshUntagged counted)
      · exact congrArg₂ (· + ·) (congrArg Static.tagFailures same) (congrArg Tally.tagFailures counted)
  | rejectTags on => exact congrArg (fun s : Static => { s with rejectsTags := on }) same
  | advance intervals => cases own
  | rejectRegistrations on => cases own

theorem decaying_skip (v : View) (input : Input) (other : input.isDelivery = false) :
    (v.take config direct input).decaying = v.decaying := by
  cases input with
  | event e =>
      have silent (peer : Peer) (topic : String) : e.bumps peer topic = 0 := by
        cases e with
        | deliver message => cases other
        | _ => rfl
      apply Decaying.ext
      · rfl
      · rfl
      · cases e with
        | join topic => cases other
        | leave topic => cases other
        | _ => rfl
      · cases e with
        | join topic => cases other
        | _ => rfl
      · funext peer topic
        show (if v.tracking topic then _ else _) = _
        rw [silent]
        exact ite_self _
  | rejectTags on => rfl
  | advance intervals => cases other
  | rejectRegistrations on => cases other

theorem decaying_step (v w : View) (input : Input) (_ : input.isDelivery = true) (same : v.decaying = w.decaying) :
    (v.take config direct input).decaying = (w.take config direct input).decaying := by
  have supports : v.supportsDecay = w.supportsDecay := congrArg Decaying.supportsDecay same
  have rejects : v.rejectsRegistrations = w.rejectsRegistrations := congrArg Decaying.rejectsRegistrations same
  have tracking : v.tracking = w.tracking := congrArg Decaying.tracking same
  have registered : v.registered = w.registered := congrArg Decaying.registered same
  have score : v.score = w.score := congrArg Decaying.score same
  have admits : v.admits = w.admits := by
    funext topic
    rw [View.admits, View.admits, supports, rejects, registered]
  cases input with
  | event e => simp only [take, event, decaying, supports, rejects, tracking, registered, score, admits]
  | advance intervals => simp only [take, decaying, supports, rejects, tracking, registered, score]
  | rejectTags on => exact same
  | rejectRegistrations on => exact congrArg (fun d : Decaying => { d with rejectsRegistrations := on }) same

/-- Without support for decay there is nothing of delivery tags. -/
structure Degraded (v : View) : Prop where
  supportsDecay : v.supportsDecay = false
  tracking : ∀ topic, v.tracking topic = false
  registered : ∀ topic, v.registered topic = false
  score : ∀ peer topic, v.score peer topic = none

theorem Degraded.take {v : View} (h : v.Degraded) (config : Config) (direct : List Peer) (input : Input) :
    (v.take config direct input).Degraded := by
  have refuses (topic : String) : v.admits topic = false := by
    rw [admits, h.supportsDecay]
    rfl
  cases input with
  | event e =>
      refine ⟨h.supportsDecay, fun topic => ?_, fun topic => ?_, fun peer topic => ?_⟩
      · cases e with
        | join t => simp [View.take, event, refuses, h.tracking]
        | leave t => simp [View.take, event, h.tracking]
        | _ => exact h.tracking topic
      · cases e with
        | join t => simp [View.take, event, refuses, h.registered]
        | _ => exact h.registered topic
      · show (if v.tracking topic then _ else _) = none
        rw [h.tracking, if_neg Bool.false_ne_true]
        exact h.score peer topic
  | advance intervals =>
      refine ⟨h.supportsDecay, h.tracking, h.registered, fun peer topic => ?_⟩
      show (Delivery.decayed config)^[intervals] (v.score peer topic) = none
      rw [h.score]
      exact Function.iterate_fixed rfl intervals
  | rejectTags on => exact ⟨h.supportsDecay, h.tracking, h.registered, h.score⟩
  | rejectRegistrations on => exact ⟨h.supportsDecay, h.tracking, h.registered, h.score⟩

theorem Degraded.run {v : View} (h : v.Degraded) (config : Config) (direct : List Peer) (inputs : List Input) :
    (v.run config direct inputs).Degraded := by
  induction inputs generalizing v with
  | nil => exact h
  | cons input inputs ih => exact ih (h.take config direct input)

theorem fresh_degraded : (fresh false).Degraded := ⟨rfl, fun _ => rfl, fun _ => rfl, fun _ _ => rfl⟩

end View

namespace Solo

variable {config : Config} {direct : List Peer} {s : Solo} {w : World} {v : View}

theorem clearCalls_not_requested (s : Solo) (input : Input) : .clearCalls ∉ s.requests input := by
  intro member
  cases s.requests_asked input .clearCalls member with
  | byTagger asks => cases asks

theorem Steady.requests_direct (h : Steady config direct s) (input : Input) :
    (s.requests input).flatMap Manager.Action.direct = input.directCalls config direct := by
  cases input with
  | event e =>
      cases e with
      | connect peer =>
          simp only [requests, Tagger.requests, h.members, h.terms, decide_eq_true_eq, Input.directCalls]
          split <;> rfl
      | graft peer topic => simp only [requests, Tagger.requests, h.terms, Input.directCalls]; rfl
      | prune peer topic => rfl
      | join topic =>
          simp only [requests, Tagger.requests]
          split <;> rfl
      | deliver message =>
          refine List.flatMap_eq_nil_iff.mpr fun a member => ?_
          cases s.tagger.requests_asks (.deliver message) a member
          rfl
      | _ => rfl
  | _ => rfl

/-- The calls to set or clear a tag are those that the inputs lead to, accepted or not. -/
theorem Steady.run_direct_calls (h : Steady config direct s) (inputs : List Input) :
    (s.run inputs).manager.calls.filter Call.isDirect =
      s.manager.calls.filter Call.isDirect ++ inputs.flatMap (Input.directCalls config direct) := by
  induction inputs generalizing s with
  | nil => exact (List.append_nil _).symm
  | cons input inputs ih =>
      refine (ih (h.take input)).trans ?_
      rw [take_manager, Manager.run_direct_calls _ (s.clearCalls_not_requested input), h.requests_direct,
        List.flatMap_cons, List.append_assoc]

/-- In degraded mode no decaying tag is asked for or used. -/
theorem Exhibits.requests_plain (h : Exhibits config direct s w v) (degraded : v.Degraded) (input : Input) :
    ∀ a ∈ s.requests input, a ≠ .clearCalls ∧ a.registered? = none ∧ a.number? = none := by
  intro a member
  refine ⟨fun same => s.clearCalls_not_requested input (same ▸ member), ?_⟩
  have unsupported : s.tagger.supportsDecay = false :=
    h.steady.alike.trans ((congrArg View.supportsDecay h.shows).trans degraded.supportsDecay)
  cases input with
  | event e =>
      cases s.tagger.requests_asks e a member with
      | join topic =>
          simp only [requests, Tagger.requests, unsupported, Bool.false_eq_true, if_false] at member
          cases member
      | deliver message number =>
          obtain ⟨topic, _, requested⟩ := List.mem_flatMap.mp member
          have untracked : s.tagger.tracked.get? topic = none := by
            simpa [Tagger.isTracking, Table.contains] using (h.isTracking_eq topic).trans (degraded.tracking topic)
          rw [Tagger.bumpRequest, untracked] at requested
          cases requested
      | _ => exact ⟨rfl, rfl⟩
  | _ =>
      cases List.mem_singleton.mp member
      exact ⟨rfl, rfl⟩

theorem Exhibits.run_calls_isDirect (h : Exhibits config direct s w v) (valid : config.Valid) (degraded : v.Degraded)
    (before : ∀ c ∈ s.manager.calls, c.isDirect = true) (inputs : List Input) :
    ∀ c ∈ (s.run inputs).manager.calls, c.isDirect = true := by
  induction inputs generalizing s w v with
  | nil => exact before
  | cons input inputs ih =>
      exact ih (h.step valid input) (degraded.take config direct input)
        (Manager.run_calls_isDirect before (h.requests_plain degraded input))

/-- In degraded mode nothing of delivery tags is ever seen. -/
theorem Exhibits.no_deliveries (h : Exhibits config direct s w v) (degraded : v.Degraded) :
    s.tagger.trackedTopics = [] ∧ s.manager.registered = [] ∧
      ∀ peer rest, s.manager.tagValue peer ("pubsub-deliveries" ++ rest) = none := by
  refine ⟨?_, ?_, fun peer rest => ?_⟩
  · have none (topic : String) : s.tagger.tracked.contains topic = (∅ : Table String Nat).contains topic :=
      (h.isTracking_eq topic).trans (degraded.tracking topic)
    exact Table.keys_eq_of_contains none
  · have none (name : String) : s.manager.registry.contains name = (∅ : Table String Nat).contains name := by
      rcases exists_or_forall_not fun topic => name = TagName.delivery topic with ⟨topic, rfl⟩ | apart
      · exact (h.registers_eq topic).trans (degraded.registered topic)
      · exact h.registered_other apart
    exact Table.keys_eq_of_contains none
  · rcases exists_or_forall_not fun topic => "pubsub-deliveries" ++ rest = TagName.delivery topic with
      ⟨topic, same⟩ | apart
    · have unscored := (h.score_eq peer topic).trans (degraded.score peer topic)
      rw [same]
      exact Option.map_eq_none_iff.mp unscored
    · exact h.bare peer _ (TagName.ne_mesh_of_deliveries rest) apart

/-- Two sessions with the same inputs that bear on direct tags show the same of them, whether
or not the managers support decay; two sessions with support and the same inputs that bear on
delivery tags show the same of those; and without support there is none of those to be seen. -/
theorem direct_and_delivery_tags_apart (checked : config.check = .ok ()) (direct : List Peer)
    (kind kind' : World.Kind) (inputs inputs' : List Input) :
    let w := (World.soloOn kind config direct).run (inputs.map Input.step)
    let w' := (World.soloOn kind' config direct).run (inputs'.map Input.step)
    ∃ t t' m m' n n', w.tagger? 0 = some t ∧ w'.tagger? 0 = some t' ∧ w.manager? 0 = some m ∧
      w'.manager? 0 = some m' ∧ w.tally = some n ∧ w'.tally = some n' ∧
      (inputs.filter Input.isStatic = inputs'.filter Input.isStatic →
        (∀ peer rest, m.tagValue peer ("pubsub:" ++ rest) = m'.tagValue peer ("pubsub:" ++ rest)) ∧
        m.calls.filter Call.isDirect = m'.calls.filter Call.isDirect ∧
        n.directTagged = n'.directTagged ∧ n.meshTagged = n'.meshTagged ∧ n.meshUntagged = n'.meshUntagged ∧
        n.tagFailures = n'.tagFailures) ∧
      (kind = .decaying → kind' = .decaying → inputs.filter Input.isDelivery = inputs'.filter Input.isDelivery →
        t.trackedTopics = t'.trackedTopics ∧ m.registered = m'.registered ∧
        ∀ peer rest, m.tagValue peer ("pubsub-deliveries:" ++ rest) = m'.tagValue peer ("pubsub-deliveries:" ++ rest)) ∧
      (kind ≠ .decaying → t.trackedTopics = [] ∧ m.registered = [] ∧
        (∀ peer rest, m.tagValue peer ("pubsub-deliveries" ++ rest) = none) ∧
        ∀ c ∈ m.calls, c.isDirect = true) := by
  intro w w'
  have valid : config.Valid := Config.check_eq_ok_iff.mp checked
  have begins (kind : World.Kind) := startOn_exhibits kind valid direct
  have one := (begins kind).run valid inputs
  have other := (begins kind').run valid inputs'
  refine ⟨_, _, _, _, _, _, one.pair.tagger?, other.pair.tagger?, one.pair.1, other.pair.1, one.tally, other.tally,
    fun filtered => ?_, fun supports supports' filtered => ?_, fun unsupported => ?_⟩
  · have fresh : (View.fresh (decide (kind = .decaying))).static = (View.fresh (decide (kind' = .decaying))).static :=
      rfl
    have same := View.run_part_eq config direct View.static_skip View.static_step fresh filtered
    refine ⟨fun peer rest => ?_, ?_, congrArg View.Static.directTagged same, congrArg View.Static.meshTagged same,
      congrArg View.Static.meshUntagged same, congrArg View.Static.tagFailures same⟩
    · refine (one.tagValue_mesh peer rest).trans (Eq.trans ?_ (other.tagValue_mesh peer rest).symm)
      exact congrFun (congrFun (congrArg View.Static.mesh same) peer) rest
    · rw [(begins kind).steady.run_direct_calls, (begins kind').steady.run_direct_calls,
        Input.flatMap_directCalls, filtered, ← Input.flatMap_directCalls]
      rfl
  · subst supports supports'
    have fresh : (View.fresh (decide (World.Kind.decaying = .decaying))).decaying = (View.fresh true).decaying := rfl
    have same := View.run_part_eq config direct View.decaying_skip View.decaying_step fresh filtered
    exact ⟨one.trackedTopics_eq other (congrArg View.Decaying.tracking same),
      one.registered_eq other (congrArg View.Decaying.registered same),
      one.tagValue_delivery_eq other (congrArg View.Decaying.score same)⟩
  · have fresh : (View.fresh (decide (kind = .decaying))).Degraded := by
      rw [decide_eq_false unsupported]
      exact View.fresh_degraded
    have silent := (begins kind).run_calls_isDirect valid fresh (fun _ member => by cases member) inputs
    obtain ⟨tracked, registered, values⟩ := one.no_deliveries (fresh.run config direct inputs)
    exact ⟨tracked, registered, values, silent⟩

/-- A session with its inputs sorted out: what bears on direct tags is heard by a manager without
support for decay, what bears on delivery tags by one that hears nothing else. -/
theorem sorted_sessions_show_the_same :
    let p : Peer := ⟨.identity, [], by decide⟩
    let inputs : List Input := [.rejectTags true, .event (.connect p), .event (.join "a"), .rejectTags false,
      .event (.deliver ⟨p, none, ["a", "b"], []⟩), .event (.connect p), .event (.graft p "a"), .advance 1,
      .event (.disconnect p), .event (.deliver ⟨p, none, ["a"], []⟩), .event (.leave "a"), .event (.prune p "b")]
    let w := (World.soloOn .decaying .default [p]).run (inputs.map Input.step)
    let w' := (World.soloOn .withoutDecay .default [p]).run ((inputs.filter Input.isStatic).map Input.step)
    let w'' := (World.soloOn .decaying .default [p]).run ((inputs.filter Input.isDelivery).map Input.step)
    ∃ m m' m'', w.manager? 0 = some m ∧ w'.manager? 0 = some m' ∧ w''.manager? 0 = some m'' ∧
      (∀ peer rest, m'.tagValue peer ("pubsub:" ++ rest) = m.tagValue peer ("pubsub:" ++ rest)) ∧
      m'.registered = [] ∧ m.registered = m''.registered ∧
      ∀ peer rest,
        m.tagValue peer ("pubsub-deliveries:" ++ rest) = m''.tagValue peer ("pubsub-deliveries:" ++ rest) := by
  intro p inputs w w' w''
  have checked : Config.check .default = .ok () := by decide +kernel
  obtain ⟨_, _, m', m, _, _, _, _, found', found, _, _, alike, _, degraded⟩ :=
    direct_and_delivery_tags_apart checked [p] .withoutDecay .decaying (inputs.filter Input.isStatic) inputs
  obtain ⟨_, _, n, m'', _, _, _, _, same, found'', _, _, _, apart, _⟩ :=
    direct_and_delivery_tags_apart checked [p] .decaying .decaying inputs (inputs.filter Input.isDelivery)
  cases Option.some.inj (found.symm.trans same)
  obtain ⟨_, registered, values⟩ := apart rfl rfl (by decide +kernel)
  exact ⟨m, m', m'', found, found', found'', (alike (by decide +kernel)).1, (degraded (by decide)).2.1, registered,
    values⟩

end Solo

end Session
end PeerTags
