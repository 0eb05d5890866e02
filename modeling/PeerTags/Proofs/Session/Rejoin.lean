import PeerTags.Proofs.Session.Delivery
/-! Whether joining a topic makes its deliveries count. It does from every state but one:
the topic was tracked and left before. The name of its delivery tag is then still
registered, so the topic is not joined again. -/
namespace PeerTags.Session

/-- The topic was joined at some time and left at a later one. -/
def JoinedThenLeft (topic : String) (inputs : List Input) : Prop :=
  [Input.event (.join topic), Input.event (.leave topic)].Sublist inputs

theorem joinedThenLeft_cons_iff {topic : String} {input : Input} {inputs : List Input} :
    JoinedThenLeft topic (input :: inputs) ↔
      JoinedThenLeft topic inputs ∨ (input = .event (.join topic) ∧ .event (.leave topic) ∈ inputs) := by
  rw [JoinedThenLeft, List.sublist_cons_iff, ← List.singleton_sublist]
  refine or_congr_right ⟨?_, ?_⟩
  · rintro ⟨rest, same, left⟩
    cases same
    exact ⟨rfl, left⟩
  · rintro ⟨rfl, left⟩
    exact ⟨_, rfl, left⟩

namespace Delivery

variable {config : Config} {peer : Peer} {topic : String}

theorem take_rejects (d : Delivery) {input : Input} (accepts : ∀ on, input ≠ .rejectRegistrations on) :
    (d.take config peer topic input).rejects = d.rejects := by
  cases input with
  | event e =>
      cases e with
      | join t => simp only [take]; split <;> rfl
      | leave t => simp only [take]; split <;> rfl
      | deliver message => simp only [take]; split <;> rfl
      | _ => rfl
  | rejectRegistrations on => exact absurd rfl (accepts on)
  | _ => rfl

/-- Only joins and leaves of the topic change how it stands. -/
theorem take_standing (d : Delivery) {input : Input} (joins : input ≠ .event (.join topic))
    (leaves : input ≠ .event (.leave topic)) : (d.take config peer topic input).standing = d.standing := by
  cases input with
  | event e =>
      cases e with
      | join t =>
          rw [take, if_neg]
          rintro ⟨rfl, _⟩
          exact joins rfl
      | leave t =>
          rw [take, if_neg]
          rintro ⟨rfl, _⟩
          exact leaves rfl
      | deliver message => simp only [take]; split <;> rfl
      | _ => rfl
  | _ => rfl

theorem take_join_standing {d : Delivery} (accepting : d.rejects = false) :
    (d.take config peer topic (.event (.join topic))).standing =
      if d.standing = .unregistered then .tracked else d.standing := by
  simp only [take, accepting, true_and, and_true]
  split <;> rfl

theorem take_leave_standing (d : Delivery) :
    (d.take config peer topic (.event (.leave topic))).standing =
      if d.standing = .tracked then .left else d.standing := by
  simp only [take, true_and]
  split <;> rfl

/-- While registrations are accepted, one more join finds the topic tracked, unless it was left
at any time after it was joined. -/
theorem tracked_after_join_iff (config : Config) (peer : Peer) (topic : String) {inputs : List Input}
    (accepts : ∀ on, .rejectRegistrations on ∉ inputs) {d : Delivery} (accepting : d.rejects = false) :
    ((inputs.foldl (take config peer topic) d).take config peer topic (.event (.join topic))).standing = .tracked ↔
      match d.standing with
      | .unregistered => ¬ JoinedThenLeft topic inputs
      | .tracked => .event (.leave topic) ∉ inputs
      | .left => False := by
  induction inputs generalizing d with
  | nil =>
      rw [List.foldl_nil, take_join_standing accepting]
      cases d.standing <;> simp [JoinedThenLeft]
  | cons input inputs ih =>
      have first : ∀ on, input ≠ .rejectRegistrations on := fun on same => accepts on (same ▸ List.mem_cons_self)
      rw [List.foldl_cons, ih (fun on later => accepts on (List.mem_cons_of_mem input later))
        ((d.take_rejects first).trans accepting)]
      by_cases joins : input = .event (.join topic)
      · subst joins
        rw [take_join_standing accepting]
        cases d.standing with
        | unregistered =>
            have either : JoinedThenLeft topic inputs → .event (.leave topic) ∈ inputs := fun both =>
              both.subset (List.mem_cons_of_mem _ List.mem_cons_self)
            simpa [joinedThenLeft_cons_iff] using mt either
        | tracked => simp
        | left => simp
      · by_cases leaves : input = .event (.leave topic)
        · subst leaves
          rw [take_leave_standing]
          cases d.standing <;> simp [joinedThenLeft_cons_iff]
        · rw [take_standing d joins leaves]
          cases d.standing <;> simp [joinedThenLeft_cons_iff, joins, Ne.symm leaves]

/-- A delivery of a tracked topic scores. -/
theorem deliver_score_isSome {d : Delivery} (tracked : d.standing = .tracked) {message : Message}
    (listed : topic ∈ message.topics) :
    (d.take config message.receivedFrom topic (.event (.deliver message))).score.isSome = true := by
  obtain ⟨n, times⟩ := Nat.exists_eq_succ_of_ne_zero (Nat.ne_of_gt (List.count_pos_iff.mpr listed))
  rw [take, if_pos ⟨rfl, tracked⟩, times, Function.iterate_succ_apply']
  rfl

end Delivery

/-- Between one world and another the manager records a bump of a peer's delivery tag,
which the table then shows. -/
def World.Scores (before after : World) (peer : Peer) (topic : String) (delta : Amount) : Prop :=
  ∃ m m' more, before.manager? 0 = some m ∧ after.manager? 0 = some m' ∧ m'.calls = m.calls ++ more ∧
    .bump peer (TagName.delivery topic) delta ∈ more ∧
    (m'.tagValue peer (TagName.delivery topic)).isSome = true

namespace Solo

variable {config : Config} {direct : List Peer} {s : Solo}

theorem take_join_calls (s : Solo) (topic : String) :
    ∃ joined, (∀ peer name delta, .bump peer name delta ∉ joined) ∧
      (s.take (.event (.join topic))).manager.calls = s.manager.calls ++ joined := by
  rw [take_manager, requests, Tagger.requests]
  split
  · rw [Manager.run_cons, Manager.run_nil, s.manager.act_calls fun same => by cases same]
    refine ⟨_, fun peer name delta member => ?_, rfl⟩
    simp only [Manager.noted] at member
    split at member
    · cases List.mem_singleton.mp member
    · cases member
  · exact ⟨[], by simp, (List.append_nil _).symm⟩

/-- A delivery records a bump for each of its topics that is tracked. -/
theorem Steady.take_deliver_calls (h : Steady config direct s) (message : Message) :
    (s.take (.event (.deliver message))).manager.calls =
      s.manager.calls ++ (message.topics.filter s.tagger.isTracking).map fun topic =>
        .bump message.receivedFrom (TagName.delivery topic) config.deliveryBump := by
  rw [take_manager, requests, Tagger.requests, Tagger.deliver_calls h.holds, h.reaches_eq, h.terms]

/-- A join records no bump, and the delivery after it one for each of its topics that is tracked. -/
theorem Steady.join_then_deliver_calls (h : Steady config direct s) (topic : String) (message : Message) :
    ∃ joined, (∀ peer name delta, .bump peer name delta ∉ joined) ∧
      ((s.take (.event (.join topic))).take (.event (.deliver message))).manager.calls =
        s.manager.calls ++ (joined ++ (message.topics.filter (s.take (.event (.join topic))).tagger.isTracking).map
          fun topic => .bump message.receivedFrom (TagName.delivery topic) config.deliveryBump) := by
  obtain ⟨joined, silent, calls⟩ := s.take_join_calls topic
  refine ⟨joined, silent, ?_⟩
  rw [(h.take (.event (.join topic))).take_deliver_calls message, calls, List.append_assoc]

/-- The topic is tracked after one more join just when it was not joined and left before. -/
theorem start_run_join_isTracking_iff (valid : config.Valid) (direct : List Peer) {inputs : List Input}
    (accepts : ∀ on, .rejectRegistrations on ∉ inputs) (peer : Peer) (topic : String) :
    ((start config valid direct).run (inputs ++ [.event (.join topic)])).tagger.isTracking topic = true ↔
      ¬ JoinedThenLeft topic inputs := by
  rw [← standing_tracked _ peer, start_delivery_run, Delivery.run, List.foldl_append]
  exact Delivery.tracked_after_join_iff config peer topic accepts (d := .fresh) rfl

/-- The table shows a score for whoever delivers a topic that is tracked. -/
theorem start_run_deliver_isSome (valid : config.Valid) (direct : List Peer) {inputs : List Input} {topic : String}
    (tracking : ((start config valid direct).run inputs).tagger.isTracking topic = true) {message : Message}
    (listed : topic ∈ message.topics) :
    (((start config valid direct).run (inputs ++ [.event (.deliver message)])).manager.tagValue
      message.receivedFrom (TagName.delivery topic)).isSome = true := by
  have reading := start_delivery_run valid direct message.receivedFrom topic
  have tracked := (standing_tracked _ message.receivedFrom topic).mpr tracking
  rw [reading] at tracked
  have after := reading (inputs ++ [.event (.deliver message)])
  rw [Delivery.run, List.foldl_append] at after
  rw [← Option.isSome_map]
  exact (congrArg (fun d => d.score.isSome) after).trans (Delivery.deliver_score_isSome tracked listed)

/-- After any run in which registrations are accepted, joining a topic and then delivering a
message of it scores, unless the topic was joined and left before. -/
theorem join_then_deliver_scores_iff (checked : config.check = .ok ()) (direct : List Peer) {inputs : List Input}
    (accepts : ∀ on, .rejectRegistrations on ∉ inputs) {topic : String} {message : Message}
    (listed : topic ∈ message.topics) :
    let before := (World.solo config direct).run (inputs.map Input.step)
    let after := before.run [.event (.one 0) (.join topic), .event (.one 0) (.deliver message)]
    before.Scores after message.receivedFrom topic config.deliveryBump ↔ ¬ JoinedThenLeft topic inputs := by
  intro before after
  have valid : config.Valid := Config.check_eq_ok_iff.mp checked
  let s := (start config valid direct).run inputs
  have shows : s.ShownBy before := (start_shownBy valid direct).run inputs
  have later : (s.run [.event (.join topic), .event (.deliver message)]).ShownBy after :=
    shows.run [.event (.join topic), .event (.deliver message)]
  have tracks : (s.take (.event (.join topic))).tagger.isTracking topic = true ↔ ¬ JoinedThenLeft topic inputs := by
    rw [← start_run_join_isTracking_iff valid direct accepts message.receivedFrom topic, run, List.foldl_append]
    rfl
  obtain ⟨joined, silent, calls⟩ := ((start_steady valid direct).run inputs).join_then_deliver_calls topic message
  constructor
  · rintro ⟨m, m', more, found, found', added, bumped, _⟩
    cases Option.some.inj (shows.1.symm.trans found)
    cases Option.some.inj (later.1.symm.trans found')
    cases List.append_cancel_left (added.symm.trans calls)
    rcases List.mem_append.mp bumped with other | bump
    · exact absurd other (silent _ _ _)
    · obtain ⟨topic', reached, same⟩ := List.mem_map.mp bump
      cases TagName.delivery_inj.mp (Call.bump.inj same).2.1
      exact tracks.mp (List.mem_filter.mp reached).2
  · intro kept
    have scored := start_run_deliver_isSome valid direct
      ((start_run_join_isTracking_iff valid direct accepts message.receivedFrom topic).mpr kept) listed
    rw [List.append_assoc, run, List.foldl_append] at scored
    refine ⟨_, _, _, shows.1, later.1, calls, ?_, scored⟩
    exact List.mem_append_right _
      (List.mem_map.mpr ⟨topic, List.mem_filter.mpr ⟨listed, tracks.mpr kept⟩, rfl⟩)

/-- A leave before the first join does no harm, and neither does a score that has decayed. -/
theorem early_leave_does_no_harm :
    let p : Peer := ⟨.identity, [], by decide⟩
    let inputs : List Input := [.event (.leave "a"), .event (.join "a"), .event (.deliver ⟨p, none, ["a"], []⟩),
      .advance 2]
    let message : Message := ⟨p, none, ["b", "a"], []⟩
    let before := (World.solo .default []).run (inputs.map Input.step)
    before.Scores (before.run [.event (.one 0) (.join "a"), .event (.one 0) (.deliver message)]) p "a" 1 := by
  intro p inputs message before
  have checked : Config.check .default = .ok () := by decide +kernel
  have accepts : ∀ on, .rejectRegistrations on ∉ inputs := by simp [inputs]
  have kept : ¬ JoinedThenLeft "a" inputs := by
    unfold JoinedThenLeft
    decide +kernel
  have listed : "a" ∈ message.topics := by simp [message]
  exact (join_then_deliver_scores_iff checked [] accepts listed).mpr kept

/-- A topic that was joined and left is not joined again, so its delivery shows nothing. -/
theorem not_every_join_scores : ¬ ∀ (config : Config) (direct : List Peer) (inputs : List Input) (topic : String)
    (message : Message), config.check = .ok () →
      (∀ input ∈ inputs, (∃ e, input = .event e) ∨ ∃ intervals, input = .advance intervals) →
      topic ∈ message.topics →
      let before := (World.solo config direct).run (inputs.map Input.step)
      before.Scores (before.run [.event (.one 0) (.join topic), .event (.one 0) (.deliver message)])
        message.receivedFrom topic config.deliveryBump := by
  intro scores
  let p : Peer := ⟨.identity, [], by decide⟩
  obtain ⟨_, m, _, _, found, _, _, shows⟩ := scores .default [] [.event (.join "a"), .event (.leave "a")] "a"
    ⟨p, none, ["a"], []⟩ (by decide +kernel) (by simp) (by simp)
  have empty : ((((World.solo .default []).run ([Input.event (.join "a"), .event (.leave "a")].map Input.step)).run
      [.event (.one 0) (.join "a"), .event (.one 0) (.deliver ⟨p, none, ["a"], []⟩)]).manager? 0).map
        (·.tagValue p (TagName.delivery "a")) = some none := by decide +kernel
  rw [found, Option.map_some, Option.some.injEq] at empty
  rw [empty] at shows
  cases shows

end Solo
end PeerTags.Session
