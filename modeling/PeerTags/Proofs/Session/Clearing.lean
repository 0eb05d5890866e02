import PeerTags.Proofs.Manager.FixedDecay
import PeerTags.Proofs.Session.Scores
/-! Scores that run out. A tagger's delivery tags fall by a constant and never stand above its cap,
so once the constant for each interval comes to the cap, nothing is left of any of them, tracked
or not. -/
namespace PeerTags.Session
namespace World

variable {kinds : List Kind} {openings : List Opening} {past : List Step} {k j : Nat} {t : Tagger} {m : Manager}

/-- A decaying tag that has a value is open. -/
theorem openAs_of_kept (seat : ((opened kinds openings).run past).manager? j = some m) {number : Nat}
    {d : DecayingTag} (place : m.issued[number]? = some d) {peer : Peer} {v : Amount}
    (kept : d.values.get? peer = some v) : m.OpenAs number d.name := by
  obtain ⟨supportsDecay, rfl, _⟩ := run_opened_manager? seat
  refine ⟨d, place, rfl, ?_⟩
  cases shut : d.closed with
  | false => rfl
  | true =>
      rw [Manager.run_closedEmpty (fun _ _ found _ => by cases found) _ number d place shut] at kept
      cases kept

/-- A decaying tag that a tagger registered falls as the tagger is set, and has no value above the cap. -/
theorem IssuedTo.capped {topic : String} {number : Nat} (single : ∀ s ∈ past, s.Single)
    (scoring : ∀ s ∈ past, s.Scoring) (found : ((opened kinds openings).run past).observers[k]? = some (.tagger j t))
    (seat : ((opened kinds openings).run past).manager? j = some m)
    (issued : (opened kinds openings).IssuedTo past k j topic number) :
    ∃ d, m.issued[number]? = some d ∧ d.name = TagName.delivery topic ∧ d.decay = .fixed t.config.decayAmount ∧
      ∀ peer v, d.values.get? peer = some v → v.toInt ≤ t.config.deliveryCap.toInt := by
  have ⟨before, after, split, issues⟩ := issued
  subst split
  obtain ⟨u, _, d, joined, seat', place, continues⟩ := issues.lasts after
  cases seat.symm.trans seat'
  obtain ⟨u', found', same⟩ := run_config (run_sound (opened_sound kinds openings) before) joined
    (.event (.one k) (.join topic) :: after)
  rw [← run_append] at found'
  cases found.symm.trans found'
  refine ⟨d, place, continues.name, same ▸ continues.decay, ?_⟩
  intro peer v kept
  have isOpen := openAs_of_kept seat place kept
  obtain ⟨shown, _⟩ := kept_shown single scoring seat place kept
  rw [continues.name] at isOpen shown
  obtain ⟨number', k', t', isOpen', owner, issued', _, most⟩ := score_bounded single scoring seat shown
  cases (scoring_mirrors scoring seat topic).1.number_unique isOpen isOpen'
  cases (issued.unique issued').1
  cases found.symm.trans owner
  exact most

/-- Once the constant for each interval comes to the cap, the tagger's decaying tags are empty. -/
theorem IssuedTo.cleared {topic : String} {number : Nat} (single : ∀ s ∈ past, s.Single)
    (scoring : ∀ s ∈ past, s.Scoring) (found : ((opened kinds openings).run past).observers[k]? = some (.tagger j t))
    (seat : ((opened kinds openings).run past).manager? j = some m) {intervals : Nat} (passed : 1 ≤ intervals)
    (enough : t.config.deliveryCap.toInt ≤ intervals * t.config.decayAmount.toInt)
    (issued : (opened kinds openings).IssuedTo past k j topic number) :
    ∃ d, (m.advance intervals).1.issued[number]? = some d ∧ d.name = TagName.delivery topic ∧ d.values = ∅ := by
  obtain ⟨d, place, name, falls, most⟩ := issued.capped single scoring found seat
  obtain ⟨supportsDecay, reached, _⟩ := run_opened_manager? seat
  cases shut : d.closed with
  | true =>
      have empty : (m.advance intervals).1.ClosedEmpty := by
        rw [reached]
        exact Manager.act_closedEmpty (a := .advance intervals)
          (Manager.run_closedEmpty (fun _ _ found _ => by cases found) _)
      obtain ⟨d', place', continues⟩ := Manager.act_continues (.advance intervals) place
      exact ⟨d', place', continues.name.trans name, empty number d' place' (continues.closed shut)⟩
  | false =>
      have consistent := (scoring_mirrors scoring seat topic).1
      obtain ⟨_, _, _, least⟩ := t.valid
      obtain ⟨values, opened, none, left⟩ := consistent.advance_fixed
        (Manager.openTag_eq_ok_iff.mpr ⟨place, shut⟩) falls least passed
      refine ⟨_, (Manager.openTag_eq_ok_iff.mp opened).1, name, ?_⟩
      apply Table.ext
      intro peer
      cases kept : d.values.get? peer with
      | none => exact none peer kept
      | some v =>
          have gone := (left peer v kept).1
          have low := most peer v kept
          rw [if_neg (by omega)] at gone
          exact Option.map_eq_none_iff.mp gone

/-- Under a name that is no delivery tag's, intervals change nothing. -/
theorem tagValue_advance_of_static (single : ∀ s ∈ past, s.Single) (scoring : ∀ s ∈ past, s.Scoring)
    (seat : ((opened kinds openings).run past).manager? j = some m) {name : String}
    (static : ∀ topic, name ≠ TagName.delivery topic) (intervals : Nat) (peer : Peer) :
    (m.advance intervals).1.tagValue peer name = m.tagValue peer name := by
  apply Manager.tagValue_advance_of_free
  rintro number ⟨d, place, rfl, _⟩
  obtain ⟨_, topic, name, _⟩ := issued_owner single scoring seat place
  exact static topic name

/-- In every state of a session an open decaying tag that falls by a constant, with any function for
its bumps, has after one interval or more the difference for each peer if that is positive and else
nothing, and the table shows the same. So in a session in which nothing but taggers scores, nothing
is left of what a tagger registered once the constant for each interval comes to its cap, topics it
has left included; what the table still shows under the name of a delivery tag somebody else
registered, and under all other names it is as it was. -/
theorem fixed_decay_runs_out {kinds : List Kind} {openings : List Opening} {steps : List Step} {j : Nat} {m : Manager}
    (seat : ((opened kinds openings).run steps).manager? j = some m) {intervals : Nat} (passed : 1 ≤ intervals) :
    let start := opened kinds openings
    let past := steps.flatMap start.turns
    let m' := (m.advance intervals).1
    ((start.run steps).step (.command j (.advance intervals))).world.manager? j = some m' ∧
    (∀ number d amount, m.openTag number = .ok d → d.decay = .fixed amount → 1 ≤ amount.toInt →
      ∃ values, m'.openTag number = .ok { d with values } ∧
        (∀ peer, d.values.get? peer = none → values.get? peer = none) ∧
        ∀ peer v, d.values.get? peer = some v →
          ((values.get? peer).map Amount.toInt = if 0 < v.toInt - intervals * amount.toInt then
            some (v.toInt - intervals * amount.toInt) else none) ∧
          m'.tagValue peer d.name = values.get? peer) ∧
    ((∀ s ∈ steps, s.Scoring) →
      (∀ (k : Nat) (t : Tagger), (start.run steps).observers[k]? = some (.tagger j t) →
        t.config.deliveryCap.toInt ≤ intervals * t.config.decayAmount.toInt →
        (∀ topic number, start.IssuedTo past k j topic number →
          ∃ d, m'.issued[number]? = some d ∧ d.values = ∅) ∧
        ∀ peer topic v, m'.tagValue peer (TagName.delivery topic) = some v →
          ∃ number, m'.OpenAs number (TagName.delivery topic) ∧ ¬ start.IssuedTo past k j topic number) ∧
      ∀ peer name, (∀ topic, name ≠ TagName.delivery topic) → m'.tagValue peer name = m.tagValue peer name) := by
  intro start past m'
  have consistent : m.Consistent := by
    obtain ⟨supportsDecay, rfl, _⟩ := run_opened_manager? seat
    exact Manager.run_consistent (Manager.new_consistent supportsDecay) _
  have next : ((start.run steps).step (.command j (.advance intervals))).world.manager? j = some m' := by
    rw [step_manager?, seat, Option.map_some, requests, if_pos rfl]
    rfl
  refine ⟨next, ?_, ?_⟩
  · intro number d amount found falls positive
    exact consistent.advance_fixed found falls positive passed
  · intro scoring
    have single : ∀ s ∈ past, s.Single := start.turns_single steps
    have scoring' : ∀ s ∈ past, s.Scoring := start.turns_scoring scoring
    have later : ∀ s ∈ steps ++ [.command j (.advance intervals)], s.Scoring := by
      intro s member
      rcases List.mem_append.mp member with before | last
      · exact scoring s before
      · cases List.mem_singleton.mp last
        trivial
    have same := start.run_turns steps
    rw [← same] at seat
    constructor
    · intro k t found enough
      rw [← same] at found
      have cleared {topic : String} {number : Nat} (issued : start.IssuedTo past k j topic number) :=
        issued.cleared single scoring' found seat passed enough
      constructor
      · intro topic number issued
        obtain ⟨d, place, _, empty⟩ := cleared issued
        exact ⟨d, place, empty⟩
      · intro peer topic v shown
        have seat' : (start.run (steps ++ [.command j (.advance intervals)])).manager? j = some m' := by
          rw [run_append]
          exact next
        obtain ⟨consistent', mirrored⟩ := scoring_mirrors later seat' topic
        obtain ⟨number, named, kept⟩ := Option.bind_eq_some_iff.mp ((mirrored peer).symm.trans shown)
        refine ⟨number, (consistent' _ number).mp named, ?_⟩
        intro issued
        obtain ⟨d, place, _, empty⟩ := cleared issued
        rw [place, Option.bind_some, empty] at kept
        cases kept
    · intro peer name static
      exact tagValue_advance_of_static single scoring' seat static intervals peer

/-- Two intervals clear a topic that its tagger has left, under a cap of ten; the other tagger's score
falls from one hundred, and the mesh tag stays. -/
theorem left_topic_runs_out :
    let p : Peer := ⟨.identity, [], by decide⟩
    let low : Config := { Config.default with deliveryBump := 10, deliveryCap := 10, decayAmount := 5 }
    let high : Config := { Config.default with deliveryBump := 100, deliveryCap := 100, decayAmount := 7 }
    let start := opened [.decaying] [.tagger 0 low [], .tagger 0 high []]
    let steps : List Step := [.event (.one 0) (.join "a"), .event (.one 1) (.join "b"),
      .event .all (.deliver ⟨p, none, ["a", "b"], []⟩), .event (.one 0) (.graft p "a"), .event (.one 0) (.leave "a")]
    ∃ (m : Manager) (d : DecayingTag) (values : Table Peer Amount), (start.run steps).manager? 0 = some m ∧
      start.IssuedTo (steps.flatMap start.turns) 0 0 "a" 0 ∧
      (m.tagValue p (TagName.delivery "a")).map Amount.toInt = some 10 ∧
      (∃ d, (m.advance 2).1.issued[0]? = some d ∧ d.values = ∅) ∧
      (d.values.get? p).map Amount.toInt = some 100 ∧ (m.advance 2).1.openTag 1 = .ok { d with values } ∧
      (values.get? p).map Amount.toInt = some 86 ∧ (m.advance 2).1.tagValue p d.name = values.get? p ∧
      (m.advance 2).1.tagValue p (TagName.mesh "a") = m.tagValue p (TagName.mesh "a") := by
  intro p low high start steps
  have scoring : ∀ s ∈ steps, s.Scoring := by simp [steps, Step.Scoring]
  have shown : ((start.run steps).manager? 0).map (fun m => ((m.tagValue p (TagName.delivery "a")).map Amount.toInt,
      (m.openTag 1).toOption.map fun d => ((d.values.get? p).map Amount.toInt, d.decay.constant?))) =
      some (some 10, some (some 100, some 7)) := by decide +kernel
  obtain ⟨m, seat, both⟩ := Option.map_eq_some_iff.mp shown
  obtain ⟨scored, other⟩ := Prod.mk.inj both
  obtain ⟨d, opened, kept⟩ := Option.map_eq_some_iff.mp other
  obtain ⟨hundred, seven⟩ := Prod.mk.inj kept
  obtain ⟨v, value, exactly⟩ := Option.map_eq_some_iff.mp hundred
  have found : m.openTag 1 = .ok d := by
    cases answer : m.openTag 1 with
    | error e =>
        rw [answer] at opened
        cases opened
    | ok e =>
        rw [answer] at opened
        exact congrArg Except.ok (Option.some.inj opened)
  have falls : d.decay = .fixed 7 := Decay.constant?_eq_some_iff.mp seven
  have place : start.managerOf? 0 = some 0 := by decide +kernel
  obtain ⟨t, joining⟩ := managerOf?_eq_some_iff.mp place
  have first : start.manager? 0 = some (.new true) := opened_manager?_eq ..
  have issued : start.IssuedTo (steps.flatMap start.turns) 0 0 "a" 0 := by
    obtain ⟨_, seat', _, supports⟩ := opened_sound _ _ 0 0 t joining
    cases first.symm.trans seat'
    exact ⟨[], _, rfl, t, _, joining, first, supports, rfl⟩
  obtain ⟨t', still, same⟩ := run_config (opened_sound _ _) joining steps
  have terms : (start.tagger? 0).map Tagger.config = some low := by decide +kernel
  have config : t'.config = low := by
    rw [tagger?, joining] at terms
    exact same.trans (Option.some.inj terms)
  obtain ⟨_, fixed, runs⟩ := fixed_decay_runs_out seat (show 1 ≤ 2 by decide)
  obtain ⟨values, opened', _, left⟩ := fixed 1 d 7 found falls (by decide)
  obtain ⟨equal, mirrored⟩ := left p v value
  obtain ⟨cleared, static⟩ := runs scoring
  have low_enough : t'.config.deliveryCap.toInt ≤ (2 : Nat) * t'.config.decayAmount.toInt := by
    rw [config]
    decide
  refine ⟨m, d, values, seat, issued, scored, (cleared 0 t' still low_enough).1 "a" 0 issued, hundred, opened', ?_,
    mirrored, ?_⟩
  · rw [equal, exactly]
    decide
  · exact static p (TagName.mesh "a") fun topic => TagName.mesh_ne_delivery "a" topic

end World
end PeerTags.Session
