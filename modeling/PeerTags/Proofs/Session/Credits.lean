import PeerTags.Proofs.Session.Tracking
import PeerTags.Proofs.Tagger.Credits
/-! A delivery in a session: what one tagger makes of a message, whatever was done before. -/
namespace PeerTags.Session
namespace World

variable {w : World} {k j : Nat} {t : Tagger} {m : Manager}

/-- A tagger that takes notice of a message bumps the message's topics at its manager and stays as it is. -/
theorem Sound.deliver (h : w.Sound) (found : w.observers[k]? = some (.tagger j t)) (seat : w.manager? j = some m)
    (message : Message) :
    let after := (w.step (.event (.one k) (.deliver message))).world
    after.manager? j = some (m.run (message.topics.flatMap (t.bumpRequest message.receivedFrom))) ∧
    (∀ i, i ≠ j → after.manager? i = w.manager? i) ∧ after.observers = w.observers ∧
    after.tally = w.tally.map (· + t.deliveryTally m message.topics) := by
  intro after
  rcases h.turn (.deliver message) k with ⟨j', t', m', found', seat', holds, _, turned⟩ | ⟨silent, _⟩
  · cases found.symm.trans found'
    cases seat.symm.trans seat'
    have reacted : after = w.reacted k j (t.react m (.deliver message)) := congrArg Prod.fst turned
    have manager : (t.react m (.deliver message)).manager =
        m.run (message.topics.flatMap (t.bumpRequest message.receivedFrom)) := t.react_manager m _
    have tagger : (t.react m (.deliver message)).tagger = t := by
      apply t.react_tagger m
      · intro topic same
        cases same
      · intro topic same
        cases same
    have tally : (t.react m (.deliver message)).tally = t.deliveryTally m message.topics :=
      Tagger.deliver_tally holds message
    rw [reacted, World.reacted, manager, tagger, tally]
    refine ⟨?_, ?_, ?_, rfl⟩
    · exact (manager?_setManager w j _ j).trans (by rw [if_pos rfl, seat, Option.map_some])
    · intro i other
      exact (manager?_setManager w j _ i).trans (if_neg (Ne.symm other))
    · apply List.ext_getElem?
      intro place
      rw [List.getElem?_set]
      split
      · rename_i here
        subst here
        rw [found, if_pos (List.getElem?_eq_some_iff.mp found).1]
      · rfl
  · exact absurd found (silent j t)

/-- In every state of a session a message credits the peer that passed it on, under each of its
topics that the tagger tracks with an open decaying tag, by as many bumps as the topic is named,
as far as the cap allows. The other topics change nothing and keep nothing from happening, and
so are the other managers and all observers left alone. The topics' order is seen in the records only. -/
theorem delivery_credits {kinds : List Kind} {openings : List Opening} {steps : List Step} {k j : Nat} {t : Tagger}
    (found : ((opened kinds openings).run steps).observers[k]? = some (.tagger j t)) (message : Message) :
    let w := (opened kinds openings).run steps
    let after := fun message => (w.step (.event (.one k) (.deliver message))).world
    ∃ m m', w.manager? j = some m ∧ (after message).manager? j = some m' ∧
      t.Credited m message.receivedFrom message.topics m' ∧
      (∀ i, i ≠ j → (after message).manager? i = w.manager? i) ∧
      (after message).observers = w.observers ∧
      (after message).tally = w.tally.map (· + t.deliveryTally m message.topics) ∧
      ∀ message', message'.receivedFrom = message.receivedFrom → message'.topics.Perm message.topics →
        ∃ m'', (after message').manager? j = some m'' ∧ m'' = { m' with calls := m''.calls } ∧
          m''.calls.Perm m'.calls ∧ (after message').tally = (after message).tally := by
  intro w after
  have sound : w.Sound := run_sound (opened_sound kinds openings) steps
  obtain ⟨m, seat, holds, _⟩ := sound k j t found
  obtain ⟨delivered, others, observers, tally⟩ := sound.deliver found seat message
  have credited := Tagger.requests_credited holds message.receivedFrom message.topics
  refine ⟨m, _, seat, delivered, credited, others, observers, tally, ?_⟩
  intro message' author same
  obtain ⟨delivered', _, _, tally'⟩ := sound.deliver found seat message'
  rw [author] at delivered'
  have credited' := Tagger.requests_credited holds message.receivedFrom message'.topics
  refine ⟨_, delivered', credited.unique credited' same, ?_, ?_⟩
  · rw [Tagger.deliver_calls holds, Tagger.deliver_calls holds]
    exact ((same.filter _).map _).append_left m.calls
  · rw [tally', tally, Tagger.deliveryTally, same.countP_eq, same.countP_eq]
    rfl

/-- A score far below zero is credited twice; one that has to stop at the cap, twice too; a topic
whose decaying tag is closed and one that was never joined get nothing. -/
theorem sunken_score_credited_twice :
    let p : Peer := ⟨.identity, [], by decide⟩
    let config : Config := { Config.default with deliveryBump := 5, deliveryCap := 6 }
    let w := (opened [.decaying] [.tagger 0 config []]).run
      [.event .all (.join "a"), .event .all (.join "b"), .event .all (.join "c"), .useHandle 2 .close,
        .useHandle 0 (.bump p (.clamp (-7)))]
    let message : Message := ⟨p, none, ["a", "z", "b", "c", "b", "a"], []⟩
    let after := (w.step (.event (.one 0) (.deliver message))).world
    let scores := fun m : Manager =>
      ["a", "b", "c", "z"].map fun topic => (m.tagValue p (TagName.delivery topic)).map Amount.toInt
    ∃ t m m', w.observers[0]? = some (.tagger 0 t) ∧ w.manager? 0 = some m ∧ after.manager? 0 = some m' ∧
      t.Credited m p message.topics m' ∧ scores m = [some (-7), none, none, none] ∧
      scores m' = [some 3, some 6, none, none] := by
  intro p config w message after scores
  have place : w.managerOf? 0 = some 0 := by decide +kernel
  have before : (w.manager? 0).map scores = some [some (-7), none, none, none] := by decide +kernel
  have later : (after.manager? 0).map scores = some [some 3, some 6, none, none] := by decide +kernel
  obtain ⟨t, found⟩ := managerOf?_eq_some_iff.mp place
  obtain ⟨m, m', seat, delivered, credited, _⟩ := delivery_credits found message
  rw [seat] at before
  rw [delivered] at later
  exact ⟨t, m, m', found, seat, delivered, credited, Option.some.inj before, Option.some.inj later⟩

end World
end PeerTags.Session
