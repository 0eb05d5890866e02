import PeerTags.Proofs.Session.Solo
import PeerTags.Proofs.Tagger.Reactions
/-! One peer's deliveries of one topic, scored in integers without bounds: what a
session should make of them, told from its inputs alone. The pair of tagger and
manager is read as such a state; each input does to the reading what it should do. -/
namespace PeerTags.Session

/-- How a topic stands: without a delivery tag so far, or with one and tracked or not. -/
inductive Standing where
  | unregistered
  | tracked
  | left
deriving DecidableEq

def Standing.of : (tracking registered : Bool) → Standing
  | true, _ => tracked
  | false, true => left
  | false, false => unregistered

theorem Standing.of_eq_tracked_iff {tracking registered : Bool} :
    Standing.of tracking registered = .tracked ↔ tracking = true := by
  cases tracking <;> cases registered <;> simp [Standing.of]

theorem Standing.of_eq_unregistered_iff {tracking registered : Bool} :
    Standing.of tracking registered = .unregistered ↔ tracking = false ∧ registered = false := by
  cases tracking <;> cases registered <;> simp [Standing.of]

structure Delivery where
  /-- Whether registrations are rejected. -/
  rejects : Bool
  standing : Standing
  score : Option Int
deriving DecidableEq

namespace Delivery

def fresh : Delivery := ⟨false, .unregistered, none⟩

/-- A message was delivered. -/
def bumped (config : Config) (score : Option Int) : Option Int :=
  some (min (score.getD 0 + config.deliveryBump.toInt) config.deliveryCap.toInt)

/-- An interval has passed. -/
def decayed (config : Config) (score : Option Int) : Option Int :=
  score.bind fun s => if s - config.decayAmount.toInt ≤ 0 then none else some (s - config.decayAmount.toInt)

def take (config : Config) (peer : Peer) (topic : String) (d : Delivery) : Input → Delivery
  | .rejectRegistrations on => { d with rejects := on }
  | .event (.join t) =>
    if t = topic ∧ d.standing = .unregistered ∧ d.rejects = false then { d with standing := .tracked } else d
  | .event (.leave t) => if t = topic ∧ d.standing = .tracked then { d with standing := .left } else d
  | .event (.deliver message) =>
    if message.receivedFrom = peer ∧ d.standing = .tracked then
      { d with score := (bumped config)^[message.topics.count topic] d.score }
    else d
  | .advance intervals => { d with score := (decayed config)^[intervals] d.score }
  | _ => d

def run (config : Config) (peer : Peer) (topic : String) (inputs : List Input) : Delivery :=
  inputs.foldl (take config peer topic) fresh

/-- A score is positive as long as there is one. -/
def Positive (score : Option Int) : Prop := ∀ s, score = some s → 0 < s

theorem bumped_positive {config : Config} (valid : config.Valid) {score : Option Int} (h : Positive score) :
    Positive (bumped config score) := by
  obtain ⟨_, bump, cap, _⟩ := valid
  intro s same
  cases same
  cases score with
  | none => simp only [Option.getD_none]; omega
  | some old =>
      have := h old rfl
      simp only [Option.getD_some]
      omega

theorem decayed_positive (config : Config) (score : Option Int) : Positive (decayed config score) := by
  intro s same
  obtain ⟨old, rfl, left⟩ := Option.bind_eq_some_iff.mp same
  split at left
  · cases left
  · cases left
    omega

/-- What bumps of the topic and intervals keep of a score, an input keeps. -/
theorem take_induction {config : Config} {peer : Peer} {topic : String} {P : Option Int → Prop} {input : Input}
    (bump : ∀ message, input = .event (.deliver message) → topic ∈ message.topics →
      ∀ score, P score → P (bumped config score))
    (decay : ∀ score, P score → P (decayed config score)) {d : Delivery} (h : P d.score) :
    P (d.take config peer topic input).score := by
  cases input with
  | event e =>
      cases e with
      | join t => simp only [take]; split <;> exact h
      | leave t => simp only [take]; split <;> exact h
      | deliver message =>
          simp only [take]
          split
          · by_cases named : topic ∈ message.topics
            · exact Function.Iterate.rec P h (bump message rfl named) _
            · rw [List.count_eq_zero_of_not_mem named]
              exact h
          · exact h
      | _ => exact h
  | advance intervals => exact Function.Iterate.rec P h decay intervals
  | _ => exact h

theorem take_positive {config : Config} (valid : config.Valid) (peer : Peer) (topic : String) {d : Delivery}
    (h : Positive d.score) (input : Input) : Positive (d.take config peer topic input).score :=
  take_induction (P := Positive) (fun _ _ _ _ => bumped_positive valid) (fun score _ => decayed_positive config score) h

end Delivery

/-! Amounts against integers. -/

theorem toInt_capped {config : Config} (valid : config.Valid) {old : Option Amount}
    (positive : Delivery.Positive (old.map Amount.toInt)) :
    some (min (old.getD 0 + config.deliveryBump) config.deliveryCap).toInt =
      Delivery.bumped config (old.map Amount.toInt) := by
  obtain ⟨_, bump, _, _⟩ := valid
  have small := config.deliveryBump.le_greatest
  have most := config.deliveryCap.le_greatest
  rw [Delivery.bumped, Amount.toInt_min, Amount.toInt_add]
  cases old with
  | none =>
      have zero : (0 : Amount).toInt = 0 := rfl
      simp only [Option.getD_none, Option.map_none, zero, Option.some.injEq]
      omega
  | some v =>
      have := positive v.toInt rfl
      simp only [Option.getD_some, Option.map_some, Option.some.injEq]
      omega

theorem toInt_decayed {config : Config} (valid : config.Valid) {old : Option Amount}
    (positive : Delivery.Positive (old.map Amount.toInt)) (idle : Nat) :
    (old.bind ((Decay.fixed config.decayAmount).next idle)).map Amount.toInt =
      Delivery.decayed config (old.map Amount.toInt) := by
  obtain ⟨_, _, _, amount⟩ := valid
  have most := config.decayAmount.le_greatest
  cases old with
  | none => rfl
  | some v =>
      have above := positive v.toInt rfl
      have below := v.le_greatest
      have equal : (v - config.decayAmount).toInt = v.toInt - config.decayAmount.toInt := by
        rw [Amount.toInt_sub]
        omega
      simp only [Option.bind_some, Option.map_some, Decay.next, Decay.positive?, Delivery.decayed, equal]
      by_cases lasts : 0 < v.toInt - config.decayAmount.toInt
      · rw [if_pos lasts, if_neg (by omega), Option.map_some, equal]
      · rw [if_neg lasts, if_pos (by omega), Option.map_none]

theorem toInt_iterate_decayed {config : Config} (valid : config.Valid) {old : Option Amount}
    (positive : Delivery.Positive (old.map Amount.toInt)) (idle intervals : Nat) :
    ((fun v : Option Amount => v.bind ((Decay.fixed config.decayAmount).next idle))^[intervals] old).map Amount.toInt =
      (Delivery.decayed config)^[intervals] (old.map Amount.toInt) := by
  induction intervals generalizing old with
  | zero => rfl
  | succ n ih =>
      have first := toInt_decayed valid positive idle
      rw [Function.iterate_succ_apply, Function.iterate_succ_apply, ← first]
      exact ih (first ▸ Delivery.decayed_positive config _)

namespace Solo

open Manager (Action)

/-- What the table shows of one peer's deliveries of one topic. -/
def score (m : Manager) (peer : Peer) (topic : String) : Option Int :=
  (m.tagValue peer (TagName.delivery topic)).map Amount.toInt

/-! One open delivery tag, whatever else there is. -/

section OpenTag

variable {config : Config} {topic : String} {m : Manager} {number : Nat} {d : DecayingTag}

theorem tagValue_of_open (c : m.Consistent) (found : m.openTag number = .ok d) (terms : Tagger.IssuedFor config topic d)
    (mirrored : m.Mirrors (TagName.delivery topic)) (peer : Peer) :
    m.tagValue peer (TagName.delivery topic) = d.values.get? peer :=
  (mirrored peer).trans (terms.name ▸ c.held_eq found peer)

theorem tagValue_bump_of_open (c : m.Consistent) (found : m.openTag number = .ok d)
    (terms : Tagger.IssuedFor config topic d) (mirrored : m.Mirrors (TagName.delivery topic)) (author peer : Peer) :
    (m.bump number author config.deliveryBump).1.tagValue peer (TagName.delivery topic) =
      if author = peer then
        some (min ((m.tagValue peer (TagName.delivery topic)).getD 0 + config.deliveryBump) config.deliveryCap)
      else m.tagValue peer (TagName.delivery topic) := by
  have before := tagValue_of_open c found terms mirrored peer
  have value : d.bump.apply ((d.values.get? author).getD 0) config.deliveryBump =
      some (min ((d.values.get? author).getD 0 + config.deliveryBump) config.deliveryCap) := by
    rw [terms.bump]
    rfl
  have after := (Manager.bump_rewrites found value).own peer (terms.name ▸ before)
  rw [terms.name, Table.get?_insert] at after
  rw [after, before]
  by_cases own : author = peer
  · rw [if_pos own.symm, if_pos own, own]
  · rw [if_neg (Ne.symm own), if_neg own]

theorem score_advance_of_open (valid : config.Valid) (c : m.Consistent) (found : m.openTag number = .ok d)
    (terms : Tagger.IssuedFor config topic d) (mirrored : m.Mirrors (TagName.delivery topic)) (peer : Peer)
    (positive : Delivery.Positive (score m peer topic)) (intervals : Nat) :
    score (m.advance intervals).1 peer topic = (Delivery.decayed config)^[intervals] (score m peer topic) := by
  have own : m.Mirrors d.name := terms.name ▸ mirrored
  have after := Manager.tagValue_advance c found own intervals peer
  rw [terms.name, terms.decay] at after
  rw [score, score, after]
  exact toInt_iterate_decayed valid positive 0 intervals

end OpenTag

/-- The pair read as a state of one peer's deliveries of one topic. -/
def delivery (s : Solo) (peer : Peer) (topic : String) : Delivery where
  rejects := s.manager.rejectsRegistrations
  standing := .of (s.tagger.isTracking topic) (s.manager.registry.contains (TagName.delivery topic))
  score := score s.manager peer topic

theorem start_delivery {config : Config} (valid : config.Valid) (direct : List Peer) (peer : Peer) (topic : String) :
    (start config valid direct).delivery peer topic = .fresh := rfl

/-! Delivery tags one by one. -/

variable {config : Config} {direct : List Peer} {s : Solo}

theorem Steady.openTag_of_tracked (h : Steady config direct s) {topic : String} {number : Nat}
    (tracked : s.tagger.tracked.get? topic = some number) :
    ∃ d, s.manager.openTag number = .ok d ∧ Tagger.IssuedFor config topic d := by
  obtain ⟨d, found, terms⟩ := h.holds topic number tracked
  rw [h.terms] at terms
  exact ⟨d, Manager.openTag_eq_ok_iff.mpr ⟨found, (h.issued number d found).1⟩, terms⟩

theorem Steady.openTag_of_registered (h : Steady config direct s) {topic : String} {number : Nat}
    (registered : s.manager.registry.get? (TagName.delivery topic) = some number) :
    ∃ d, s.manager.openTag number = .ok d ∧ Tagger.IssuedFor config topic d := by
  obtain ⟨d, found, named, isOpen⟩ := (h.consistent (TagName.delivery topic) number).mp registered
  obtain ⟨_, topic', terms⟩ := h.issued number d found
  cases TagName.delivery_inj.mp (terms.name.symm.trans named)
  exact ⟨d, Manager.openTag_eq_ok_iff.mpr ⟨found, isOpen⟩, terms⟩

theorem Steady.registered_of_tracking (h : Steady config direct s) {topic : String}
    (tracking : s.tagger.isTracking topic = true) :
    s.manager.registry.contains (TagName.delivery topic) = true := by
  obtain ⟨number, tracked⟩ := Option.isSome_iff_exists.mp tracking
  obtain ⟨d, found, terms⟩ := h.openTag_of_tracked tracked
  have registered := (h.consistent d.name number).mpr (Manager.openAs_of_openTag found)
  rw [terms.name] at registered
  rw [Table.contains, registered]
  rfl

/-- No decaying tag is ever closed, so each tracked topic can be bumped. -/
theorem Steady.reaches_eq (h : Steady config direct s) : s.tagger.reaches s.manager = s.tagger.isTracking := by
  funext topic
  cases tracked : s.tagger.tracked.get? topic with
  | none => simp [Tagger.reaches_of_untracked tracked, Tagger.isTracking, Table.contains, tracked]
  | some number =>
      obtain ⟨d, found, _⟩ := h.openTag_of_tracked tracked
      simp [Tagger.reaches_of_openTag tracked found, Tagger.isTracking, Table.contains, tracked]

theorem Steady.unregistered_value (h : Steady config direct s) {topic : String}
    (unregistered : s.manager.registry.get? (TagName.delivery topic) = none) (peer : Peer) :
    s.manager.tagValue peer (TagName.delivery topic) = none := by
  rw [h.mirrors topic peer, Manager.held, unregistered, Option.bind_none]

/-- What one delivered topic does to a peer's delivery tag of a topic. -/
theorem Steady.tagValue_bumpRequest (h : Steady config direct s) (author peer : Peer) (named topic : String) :
    (s.manager.run (s.tagger.bumpRequest author named)).tagValue peer (TagName.delivery topic) =
      if author = peer ∧ named = topic ∧ s.tagger.isTracking topic = true then
        some (min ((s.manager.tagValue peer (TagName.delivery topic)).getD 0 + config.deliveryBump) config.deliveryCap)
      else s.manager.tagValue peer (TagName.delivery topic) := by
  unfold Tagger.bumpRequest
  cases tracked : s.tagger.tracked.get? named with
  | none =>
      have untracked : ¬ (author = peer ∧ named = topic ∧ s.tagger.isTracking topic = true) := by
        rintro ⟨_, rfl, tracking⟩
        rw [Tagger.isTracking, Table.contains, tracked] at tracking
        cases tracking
      rw [if_neg untracked]
      rfl
  | some number =>
      obtain ⟨d, found, terms⟩ := h.openTag_of_tracked tracked
      rw [h.terms]
      show (s.manager.bump number author config.deliveryBump).1.tagValue peer (TagName.delivery topic) = _
      by_cases same : named = topic
      · subst same
        have tracking : s.tagger.isTracking named = true := by
          rw [Tagger.isTracking, Table.contains, tracked]
          rfl
        rw [tagValue_bump_of_open h.consistent found terms (h.mirrors named)]
        simp only [tracking, and_true]
      · have other (e : DecayingTag) (opened : s.manager.openTag number = .ok e) : TagName.delivery topic ≠ e.name := by
          cases found.symm.trans opened
          rw [terms.name]
          exact fun equal => same (TagName.delivery_inj.mp equal).symm
        rw [if_neg fun all => same all.2.1]
        exact Manager.tagValue_act_use (a := .bump number author config.deliveryBump) rfl other peer

theorem Steady.score_bumpRequest (h : Steady config direct s) (valid : config.Valid) (author peer : Peer)
    (named topic : String) (positive : Delivery.Positive (score s.manager peer topic)) :
    score (s.manager.run (s.tagger.bumpRequest author named)) peer topic =
      if author = peer ∧ named = topic ∧ s.tagger.isTracking topic = true then
        Delivery.bumped config (score s.manager peer topic)
      else score s.manager peer topic := by
  rw [score, h.tagValue_bumpRequest]
  split
  · exact toInt_capped valid positive
  · rfl

theorem Steady.score_deliver (h : Steady config direct s) (valid : config.Valid) (author peer : Peer) (topic : String)
    (positive : Delivery.Positive (score s.manager peer topic)) (topics : List String) :
    score (s.manager.run (topics.flatMap (s.tagger.bumpRequest author))) peer topic =
      if author = peer ∧ s.tagger.isTracking topic = true then
        (Delivery.bumped config)^[topics.count topic] (score s.manager peer topic)
      else score s.manager peer topic := by
  induction topics generalizing s with
  | nil => exact (ite_self _).symm
  | cons named topics ih =>
      have asked : ∀ a ∈ s.tagger.bumpRequest author named, Asked config a := fun a member =>
        .byTagger (h.terms ▸ s.tagger.bumpRequest_asks ⟨author, none, [], []⟩ named a member)
      have next := h.more asked (Tagger.bumpRequest_calm h.holds author named)
      have first := h.score_bumpRequest valid author peer named topic positive
      have still : Delivery.Positive (score (s.manager.run (s.tagger.bumpRequest author named)) peer topic) := by
        rw [first]
        split
        · exact Delivery.bumped_positive valid positive
        · exact positive
      rw [List.flatMap_cons, Manager.run_append]
      refine (ih next still).trans ?_
      rw [first]
      by_cases scored : author = peer ∧ s.tagger.isTracking topic = true
      · by_cases same : named = topic
        · rw [if_pos scored, if_pos scored, if_pos ⟨scored.1, same, scored.2⟩, same, List.count_cons_self,
            Function.iterate_succ_apply]
        · rw [if_pos scored, if_pos scored, if_neg fun all => same all.2.1, List.count_cons_of_ne same]
      · rw [if_neg scored, if_neg scored, if_neg fun all => scored ⟨all.1, all.2.2⟩]

theorem Steady.score_advance (h : Steady config direct s) (valid : config.Valid) (peer : Peer) (topic : String)
    (positive : Delivery.Positive (score s.manager peer topic)) (intervals : Nat) :
    score (s.manager.advance intervals).1 peer topic =
      (Delivery.decayed config)^[intervals] (score s.manager peer topic) := by
  cases registered : s.manager.registry.get? (TagName.delivery topic) with
  | none =>
      have free := fun number isOpen => h.consistent.get?_eq_none_iff.mp registered ⟨number, isOpen⟩
      rw [score, score, Manager.tagValue_advance_of_free free, h.unregistered_value registered]
      exact (Function.iterate_fixed rfl intervals).symm
  | some number =>
      obtain ⟨d, found, terms⟩ := h.openTag_of_registered registered
      exact score_advance_of_open valid h.consistent found terms (h.mirrors topic) peer positive intervals

theorem score_act {e : Event} (silent : ∀ message, e ≠ .deliver message) {a : Action}
    (asks : Tagger.Asks config e a) (m : Manager) (peer : Peer) (topic : String) :
    score (m.act a) peer topic = score m peer topic := by
  have apart := (Asked.byTagger asks).tagged_ne_delivery topic
  unfold score
  cases asks with
  | connect p => rw [Manager.tagValue_act_eq_of_not_tagged rfl apart]
  | graft p t => rw [Manager.tagValue_act_eq_of_not_tagged rfl apart]
  | prune p t => rw [Manager.tagValue_act_eq_of_not_tagged rfl apart]
  | join t =>
      rcases Manager.register_cases m (TagName.delivery t) config.decayInterval (.fixed config.decayAmount)
        (.capped config.deliveryCap) with ⟨_, issued⟩ | ⟨e, refused⟩
      · rw [Manager.act, issued]
        rfl
      · rw [Manager.act, refused]
  | deliver message number => exact absurd rfl (silent message)

/-- Only deliveries are scored. -/
theorem score_event (s : Solo) {e : Event} (silent : ∀ message, e ≠ .deliver message) (peer : Peer) (topic : String) :
    score (s.take (.event e)).manager peer topic = score s.manager peer topic := by
  have all {actions : List Action} (asks : ∀ a ∈ actions, Tagger.Asks s.tagger.config e a) (m : Manager) :
      score (m.run actions) peer topic = score m peer topic := by
    induction actions generalizing m with
    | nil => rfl
    | cons a actions ih =>
        rw [Manager.run_cons, ih fun b later => asks b (List.mem_cons_of_mem a later)]
        exact score_act silent (asks a List.mem_cons_self) m peer topic
  exact all (s.tagger.requests_asks e) s.manager

/-! How a topic stands. -/

theorem delivery_eq (s s' : Solo) (peer : Peer) (topic : String)
    (rejects : s'.manager.rejectsRegistrations = s.manager.rejectsRegistrations)
    (tracking : s'.tagger.isTracking topic = s.tagger.isTracking topic)
    (registered : s'.manager.registry.contains (TagName.delivery topic) =
      s.manager.registry.contains (TagName.delivery topic)) :
    s'.delivery peer topic = { s.delivery peer topic with score := score s'.manager peer topic } := by
  simp only [delivery, rejects, tracking, registered]

theorem Steady.standing_unregistered (h : Steady config direct s) (peer : Peer) (topic : String) :
    (s.delivery peer topic).standing = .unregistered ↔
      s.manager.registry.get? (TagName.delivery topic) = none := by
  have free : s.manager.registry.contains (TagName.delivery topic) = false ↔
      s.manager.registry.get? (TagName.delivery topic) = none := by
    rw [Table.contains, Option.isSome_eq_false_iff, Option.isNone_iff_eq_none]
  rw [delivery, Standing.of_eq_unregistered_iff, free]
  refine ⟨And.right, fun unnamed => ⟨?_, unnamed⟩⟩
  rw [← free] at unnamed
  cases tracking : s.tagger.isTracking topic with
  | false => rfl
  | true => exact absurd (h.registered_of_tracking tracking) (by simp [unnamed])

theorem standing_tracked (s : Solo) (peer : Peer) (topic : String) :
    (s.delivery peer topic).standing = .tracked ↔ s.tagger.isTracking topic = true :=
  Standing.of_eq_tracked_iff

/-- Only joining registers anything. -/
theorem event_sameHandles (s : Solo) {e : Event} (joins : ∀ t, e ≠ .join t) :
    s.manager.SameHandles (s.take (.event e)).manager := s.tagger.requests_sameHandles s.manager joins

theorem Steady.take_join_isTracking (h : Steady config direct s) (t topic : String) :
    (s.take (.event (.join t))).tagger.isTracking topic =
      (decide (topic = t) && s.manager.admits (TagName.delivery t) || s.tagger.isTracking topic) :=
  s.tagger.join_isTracking s.manager t h.alike topic

theorem Steady.take_join_registers (h : Steady config direct s) (t topic : String) :
    (s.take (.event (.join t))).manager.registry.contains (TagName.delivery topic) =
      (decide (topic = t) && s.manager.admits (TagName.delivery t) ||
        s.manager.registry.contains (TagName.delivery topic)) := by
  rw [take_manager, requests, ← Tagger.react_manager]
  exact s.tagger.join_registers s.manager t h.alike topic

theorem Steady.admits_iff (h : Steady config direct s) (supports : s.manager.supportsDecay = true) (peer : Peer)
    (topic : String) : s.manager.admits (TagName.delivery topic) = true ↔
      (s.delivery peer topic).standing = .unregistered ∧ s.manager.rejectsRegistrations = false := by
  rw [Manager.admits_eq_true_iff, h.standing_unregistered, and_iff_right supports, and_comm]

theorem Steady.delivery_join (h : Steady config direct s) (supports : s.manager.supportsDecay = true) (peer : Peer)
    (topic t : String) : (s.take (.event (.join t))).delivery peer topic =
      (s.delivery peer topic).take config peer topic (.event (.join t)) := by
  have rejects : (s.take (.event (.join t))).manager.rejectsRegistrations = s.manager.rejectsRegistrations :=
    (Manager.switches_eq_iff.mp (s.take_switches (.event (.join t)))).2.2
  have shown := @score_event s (.join t) (fun _ same => by cases same) peer topic
  have tracking := h.take_join_isTracking t topic
  have registered := h.take_join_registers t topic
  by_cases admitted : topic = t ∧ s.manager.admits (TagName.delivery t) = true
  · obtain ⟨rfl, admitted⟩ := admitted
    obtain ⟨unregistered, accepts⟩ := (h.admits_iff supports peer topic).mp admitted
    rw [Delivery.take, if_pos ⟨rfl, unregistered, accepts⟩]
    simp [delivery, rejects, shown, tracking, registered, admitted, Standing.of]
  · have kept : (decide (topic = t) && s.manager.admits (TagName.delivery t)) = false := by
      simpa using admitted
    rw [kept, Bool.false_or] at tracking registered
    rw [Delivery.take, if_neg, delivery_eq s _ peer topic rejects tracking registered, shown]
    · rfl
    · rintro ⟨rfl, unregistered, accepts⟩
      exact admitted ⟨rfl, (h.admits_iff supports peer t).mpr ⟨unregistered, accepts⟩⟩

theorem take_leave (s : Solo) (t : String) : (s.take (.event (.leave t))).manager = s.manager ∧
    ∀ topic, (s.take (.event (.leave t))).tagger.isTracking topic =
      if topic = t then false else s.tagger.isTracking topic := by
  refine ⟨rfl, fun topic => (s.tagger.leave_isTracking s.manager t topic).trans ?_⟩
  by_cases same : topic = t <;> simp [same]

theorem Steady.delivery_leave (h : Steady config direct s) (peer : Peer) (topic t : String) :
    (s.take (.event (.leave t))).delivery peer topic =
      (s.delivery peer topic).take config peer topic (.event (.leave t)) := by
  obtain ⟨manager, tracking⟩ := s.take_leave t
  simp only [Delivery.take, standing_tracked]
  by_cases here : t = topic ∧ s.tagger.isTracking topic = true
  · obtain ⟨rfl, tracked⟩ := here
    rw [if_pos ⟨rfl, tracked⟩]
    simp only [delivery, manager, tracking, if_true, h.registered_of_tracking tracked, Standing.of]
  · rw [if_neg here]
    have same : (s.take (.event (.leave t))).tagger.isTracking topic = s.tagger.isTracking topic := by
      rw [tracking]
      split
      · rename_i same
        exact (Bool.eq_false_iff.mpr fun tracked => here ⟨same.symm, tracked⟩).symm
      · rfl
    simp only [delivery, manager, same]

/-- Whatever happens, the reading of the pair follows. -/
theorem Steady.delivery_take (h : Steady config direct s) (supports : s.manager.supportsDecay = true)
    (valid : config.Valid) (peer : Peer) (topic : String)
    (positive : Delivery.Positive (s.delivery peer topic).score) (input : Input) :
    (s.take input).delivery peer topic = (s.delivery peer topic).take config peer topic input := by
  have quiet {e : Event} (joins : ∀ t, e ≠ .join t) (leaves : ∀ t, e ≠ .leave t) :
      (s.take (.event e)).delivery peer topic =
        { s.delivery peer topic with score := score (s.take (.event e)).manager peer topic } := by
    refine delivery_eq s _ peer topic ?_ ?_ ?_
    · exact (Manager.switches_eq_iff.mp (s.take_switches (.event e))).2.2
    · exact congrArg (fun t => t.isTracking topic) (Tagger.react_tagger s.tagger s.manager joins leaves)
    · rw [(s.event_sameHandles joins).registry]
  have other {e : Event} (joins : ∀ t, e ≠ .join t) (leaves : ∀ t, e ≠ .leave t)
      (silent : ∀ message, e ≠ .deliver message) :
      (s.take (.event e)).delivery peer topic = s.delivery peer topic := by
    rw [quiet joins leaves, score_event s silent]
    rfl
  cases input with
  | event e =>
      cases e with
      | join t => exact h.delivery_join supports peer topic t
      | leave t => exact h.delivery_leave peer topic t
      | deliver message =>
          have rest := @quiet (.deliver message) (fun _ same => nomatch same) (fun _ same => nomatch same)
          have scored : score (s.take (.event (.deliver message))).manager peer topic = _ :=
            h.score_deliver valid message.receivedFrom peer topic positive message.topics
          simp only [rest, scored, Delivery.take, standing_tracked]
          split <;> rfl
      | _ => exact other (fun _ same => by cases same) (fun _ same => by cases same) fun _ same => by cases same
  | advance intervals =>
      refine (delivery_eq s (s.take (.advance intervals)) peer topic ?_ rfl ?_).trans ?_
      · exact (Manager.switches_eq_iff.mp (s.take_switches (.advance intervals))).2.2
      · have same := (Manager.advance_sameHandles s.manager intervals).registry
        exact congrArg (fun registry => registry.contains (TagName.delivery topic)) same
      · have scored := h.score_advance valid peer topic positive intervals
        rw [Delivery.take, take_manager]
        exact congrArg (fun score => { s.delivery peer topic with score }) scored
  | rejectTags on => rfl
  | rejectRegistrations on => rfl

/-- After every run the table shows the scores that the inputs call for, and the tagger
tracks the topics that it should. -/
theorem Steady.delivery_run (h : Steady config direct s) (supports : s.manager.supportsDecay = true)
    (valid : config.Valid) (peer : Peer) (topic : String)
    (positive : Delivery.Positive (s.delivery peer topic).score) (inputs : List Input) :
    (s.run inputs).delivery peer topic =
      inputs.foldl (Delivery.take config peer topic) (s.delivery peer topic) := by
  induction inputs generalizing s with
  | nil => rfl
  | cons input inputs ih =>
      have next := h.delivery_take supports valid peer topic positive input
      have still := Delivery.take_positive valid peer topic positive input
      rw [List.foldl_cons, ← next]
      exact ih (h.take input) ((s.take_supportsDecay input).trans supports) (next ▸ still)

theorem start_delivery_run (valid : config.Valid) (direct : List Peer) (peer : Peer) (topic : String)
    (inputs : List Input) :
    ((start config valid direct).run inputs).delivery peer topic = Delivery.run config peer topic inputs := by
  have unscored : Delivery.Positive ((start config valid direct).delivery peer topic).score :=
    fun _ scored => nomatch scored
  rw [(start_steady valid direct).delivery_run rfl valid peer topic unscored, start_delivery, Delivery.run]

end Solo
end PeerTags.Session
