import PeerTags.Proofs.Session.Turns
/-! Whose a decaying tag is. A tagger tracks a topic with a decaying tag that it registered
itself, when it joined the topic; no decaying tag is issued twice, so none is tracked by two
taggers or for two topics. Two taggers may track the same topic at once, but one of them
with a decaying tag that was closed. -/
namespace PeerTags

namespace Manager

/-- A registration that goes through issues the next number under a free name. -/
theorem register_eq_ok {m : Manager} {name : String} {interval : Duration} {decay : Decay} {bump : Bump} {number : Nat}
    (ok : (m.register name interval decay bump).2 = .ok number) :
    number = m.issued.length ∧ m.registry.get? name = none ∧
      (m.register name interval decay bump).1.issued = m.issued ++ [⟨name, interval, decay, bump, ∅, false⟩] := by
  rcases register_cases m name interval decay bump with ⟨free, issued⟩ | ⟨e, refused⟩
  · rw [issued] at ok ⊢
    cases ok
    exact ⟨rfl, free, rfl⟩
  · rw [refused] at ok
    cases ok

end Manager

namespace Tagger

/-- A topic's delivery tag as it is issued on these terms. -/
def deliveryTag (config : Config) (topic : String) : DecayingTag :=
  ⟨TagName.delivery topic, config.decayInterval, .fixed config.decayAmount, .capped config.deliveryCap, ∅, false⟩

/-- A tracked topic is bumped as long as its decaying tag is open. -/
theorem bumpDelivery_of_tracked {t : Tagger} {m : Manager} (h : t.Holds m) {topic : String} {number : Nat}
    {d : DecayingTag} (tracked : t.tracked.get? topic = some number) (found : m.issued[number]? = some d)
    (peer : Peer) : (t.bumpDelivery m peer topic).2 =
      if d.closed then .error (.manager (.closed d.name)) else .ok () := by
  cases shut : d.closed with
  | true => simp only [bumpDelivery, tracked, Manager.bump_of_error (Manager.openTag_of_closed found shut), if_true]
  | false =>
      have isOpen := Manager.openTag_eq_ok_iff.mpr ⟨found, shut⟩
      rcases bumpDelivery_cases h peer topic with ⟨_, done, _⟩ | ⟨missed, _, _⟩
      · rw [done]
        rfl
      · rw [reaches_of_openTag tracked isOpen] at missed
        cases missed

/-- What a tagger tracks after an event it tracked before, or has just registered. -/
theorem react_tracked {t : Tagger} {m : Manager} {e : Event} {topic : String} {number : Nat}
    (tracked : (t.react m e).tagger.tracked.get? topic = some number) :
    t.tracked.get? topic = some number ∨ e = .join topic ∧ t.supportsDecay = true ∧
      (m.register (TagName.delivery topic) t.config.decayInterval (.fixed t.config.decayAmount)
        (.capped t.config.deliveryCap)).2 = .ok number := by
  cases e with
  | join joined =>
      cases supports : t.supportsDecay with
      | false =>
          simp only [react, join, supports, Bool.not_false, if_true] at tracked
          exact .inl tracked
      | true =>
          rcases t.join_eq m joined supports with ⟨fresh, ok, after⟩ | ⟨_, _, after⟩
          · simp only [react, after, Table.get?_insert] at tracked
            split at tracked
            · rename_i same
              subst same
              exact .inr ⟨rfl, rfl, Option.some.inj tracked ▸ ok⟩
            · exact .inl tracked
          · simp only [react, after] at tracked
            exact .inl tracked
  | leave left =>
      rcases t.leave_tagger m left with after | ⟨after, _⟩
      · simp only [react, after, Table.get?_erase] at tracked
        split at tracked
        · cases tracked
        · exact .inl tracked
      · simp only [react, after] at tracked
        exact .inl tracked
  | _ =>
      rw [t.react_tagger m (fun _ same => by cases same) fun _ same => by cases same] at tracked
      exact .inl tracked

end Tagger

namespace Session.World

/-- The decaying tag with which an observer tracks a topic, as manager and number. -/
def tracked? (w : World) (k : Nat) (topic : String) : Option (Nat × Nat) :=
  match w.observers[k]? with
  | some (.tagger j t) => (t.tracked.get? topic).map (j, ·)
  | _ => none

theorem tracked?_eq_some_iff {w : World} {k : Nat} {topic : String} {j number : Nat} :
    w.tracked? k topic = some (j, number) ↔
      ∃ t, w.observers[k]? = some (.tagger j t) ∧ t.tracked.get? topic = some number := by
  unfold tracked?
  split
  · rename_i i t found
    rw [found, Option.map_eq_some_iff]
    constructor
    · rintro ⟨_, tracked, same⟩
      cases same
      exact ⟨t, rfl, tracked⟩
    · rintro ⟨_, same, tracked⟩
      cases same
      exact ⟨number, tracked, rfl⟩
  · rename_i others
    constructor
    · exact fun none => by cases none
    · rintro ⟨t, found, _⟩
      exact absurd found (others j t)

/-- If the observer joined the topic now, its tagger would register the topic's delivery tag and
the manager would issue it under this number. -/
def JoinIssues (w : World) (k j : Nat) (topic : String) (number : Nat) : Prop :=
  ∃ t m, w.observers[k]? = some (.tagger j t) ∧ w.manager? j = some m ∧ t.supportsDecay = true ∧
    (m.register (TagName.delivery topic) t.config.decayInterval (.fixed t.config.decayAmount)
      (.capped t.config.deliveryCap)).2 = .ok number

/-- In the past the observer joined the topic, and its tagger registered this decaying tag. -/
def IssuedTo (start : World) (past : List Step) (k j : Nat) (topic : String) (number : Nat) : Prop :=
  ∃ before after, past = before ++ .event (.one k) (.join topic) :: after ∧
    (start.run before).JoinIssues k j topic number

variable {start w : World} {past : List Step} {k k' j : Nat} {topic topic' : String} {number : Nat}

theorem IssuedTo.append (h : start.IssuedTo past k j topic number) (more : List Step) :
    start.IssuedTo (past ++ more) k j topic number := by
  obtain ⟨before, after, rfl, issues⟩ := h
  exact ⟨before, after ++ more, by rw [List.append_assoc, List.cons_append], issues⟩

/-- After the join the topic's delivery tag has the number. -/
theorem JoinIssues.turn (h : w.JoinIssues k j topic number) :
    ∃ t m, w.observers[k]? = some (.tagger j t) ∧ (w.notify (.join topic) k).1.manager? j = some m ∧
      m.issued[number]? = some (Tagger.deliveryTag t.config topic) := by
  obtain ⟨t, m, found, seat, supports, ok⟩ := h
  obtain ⟨rfl, _, issued⟩ := Manager.register_eq_ok ok
  refine ⟨t, _, found, (notify_manager? w (.join topic) k j).trans (congrArg _ seat), ?_⟩
  simp only [eventRequests, found, Option.elim_some, Observer.requests, if_true, Tagger.requests, supports,
    Manager.run_cons, Manager.run_nil, Manager.act, issued]
  exact List.getElem?_concat_length

/-- The number is for good that of the delivery tag. -/
theorem JoinIssues.lasts {before : List Step} (h : (start.run before).JoinIssues k j topic number)
    (after : List Step) : ∃ t m d, (start.run before).observers[k]? = some (.tagger j t) ∧
      (start.run (before ++ .event (.one k) (.join topic) :: after)).manager? j = some m ∧
      m.issued[number]? = some d ∧ (Tagger.deliveryTag t.config topic).Continues d := by
  obtain ⟨t, m, found, seat, issued⟩ := h.turn
  obtain ⟨d, still, continues⟩ := Manager.run_continues
    (((start.run before).notify (.join topic) k).1.history j after) issued
  refine ⟨t, _, d, found, ?_, still, continues⟩
  rw [run_append, run_cons, run_manager?]
  exact congrArg _ seat

/-- A number that was issued is not issued again. -/
theorem JoinIssues.not_again {before : List Step} (h : (start.run before).JoinIssues k j topic number)
    (between : List Step) : ¬ (start.run (before ++ .event (.one k) (.join topic) :: between)).JoinIssues k' j topic'
      number := by
  rintro ⟨_, m', _, seat', _, ok⟩
  obtain ⟨_, m, d, _, seat, issued, _⟩ := h.lasts between
  cases seat'.symm.trans seat
  have inside : number < m'.issued.length := (List.getElem?_eq_some_iff.mp issued).1
  exact Nat.ne_of_lt inside (Manager.register_eq_ok ok).1

theorem JoinIssues.same {before before' after after' : List Step}
    (h : (start.run before).JoinIssues k j topic number) (h' : (start.run before').JoinIssues k' j topic' number)
    {between : List Step} (later : before' = before ++ between)
    (rest : .event (.one k) (.join topic) :: after = between ++ .event (.one k') (.join topic') :: after') :
    k = k' ∧ topic = topic' := by
  cases between with
  | nil =>
      cases rest
      exact ⟨rfl, rfl⟩
  | cons s between =>
      cases rest
      subst later
      exact absurd h' (h.not_again between)

/-- A decaying tag was issued to one observer only, and for one topic. -/
theorem IssuedTo.unique (h : start.IssuedTo past k j topic number) (h' : start.IssuedTo past k' j topic' number) :
    k = k' ∧ topic = topic' := by
  obtain ⟨before, after, split, issues⟩ := h
  obtain ⟨before', after', split', issues'⟩ := h'
  rcases List.append_eq_append_iff.mp (split.symm.trans split') with ⟨_, later, rest⟩ | ⟨_, later, rest⟩
  · exact issues.same issues' later rest
  · obtain ⟨observer, joined⟩ := issues'.same issues later rest
    exact ⟨observer.symm, joined.symm⟩

/-- A topic that is tracked after an observer's turn was tracked before, or the observer has just
joined it. -/
theorem Sound.notify_tracked {w : World} (h : w.Sound) {event : Event} {turn : Nat}
    (tracked : (w.notify event turn).1.tracked? k topic = some (j, number)) :
    w.tracked? k topic = some (j, number) ∨
      (event = .join topic ∧ turn = k ∧ w.JoinIssues k j topic number) := by
  obtain ⟨t, found, listed⟩ := tracked?_eq_some_iff.mp tracked
  by_cases own : turn = k
  · subst own
    rcases h.turn event turn with ⟨i, t', m, before, seat, _, _, after⟩ | ⟨_, same⟩
    · rw [after] at found
      cases (reacted_self before _).symm.trans found
      rcases Tagger.react_tracked listed with old | ⟨joined, supports, ok⟩
      · exact .inl (tracked?_eq_some_iff.mpr ⟨t', before, old⟩)
      · exact .inr ⟨joined, rfl, t', m, before, seat, supports, ok⟩
    · rw [same] at tracked
      exact .inl tracked
  · rw [notify_observers_ne w event own] at found
    exact .inl (tracked?_eq_some_iff.mpr ⟨t, found, listed⟩)

/-- What a tagger tracks was issued to it. -/
theorem tracked_issuedTo (kinds : List Kind) (openings : List Opening) {past : List Step}
    (single : ∀ s ∈ past, s.Single) {k j : Nat} {topic : String} {number : Nat}
    (tracked : ((opened kinds openings).run past).tracked? k topic = some (j, number)) :
    (opened kinds openings).IssuedTo past k j topic number := by
  revert k j topic number
  refine single_induction (P := fun past => ∀ {k j topic number},
    ((opened kinds openings).run past).tracked? k topic = some (j, number) →
      (opened kinds openings).IssuedTo past k j topic number) ?_ ?_ ?_ single
  · intro k j topic number tracked
    obtain ⟨t, found, listed⟩ := tracked?_eq_some_iff.mp tracked
    rw [opened_untracked found] at listed
    cases listed
  · intro past turn event ih k j topic number tracked
    rw [run_append] at tracked
    rcases (run_sound (opened_sound kinds openings) past).notify_tracked tracked with old | ⟨rfl, rfl, issues⟩
    · exact (ih old).append _
    · exact ⟨past, [], rfl, issues⟩
  · intro past s quiet ih k j topic number tracked
    rw [run_append, run_cons, run_nil, tracked?, step_observers _ quiet] at tracked
    exact (ih tracked).append _

/-- In every state of every session a tagger tracks a topic with a decaying tag that it registered
itself when it joined the topic, on its own manager and on its own terms. No decaying tag is
tracked by two taggers, or for two topics. One that is tracked is open just as long as it has
its name in the registry; as long as that is so bumps go through, and no other tagger of the
manager has an open one for the topic. -/
theorem run_ownership (kinds : List Kind) (openings : List Opening) (steps : List Step) :
    let start := opened kinds openings
    let w := start.run steps
    (∀ k j t topic number, w.observers[k]? = some (.tagger j t) → t.tracked.get? topic = some number →
      start.IssuedTo (steps.flatMap start.turns) k j topic number ∧
      ∃ m d, w.manager? j = some m ∧ m.issued[number]? = some d ∧
        d.name = TagName.delivery topic ∧ d.interval = t.config.decayInterval ∧
        (d.closed = true ∨ m.registry.get? (TagName.delivery topic) = some number) ∧
        ∀ peer, (t.bumpDelivery m peer topic).2 = if d.closed then .error (.manager (.closed d.name)) else .ok ()) ∧
    (∀ k k' topic topic' tag, w.tracked? k topic = some tag → w.tracked? k' topic' = some tag →
      k = k' ∧ topic = topic') ∧
    ∀ k k' j m topic number number', w.manager? j = some m →
      w.tracked? k topic = some (j, number) → w.tracked? k' topic = some (j, number') →
      m.OpenAs number (TagName.delivery topic) → m.OpenAs number' (TagName.delivery topic) → k = k' := by
  intro start w
  have issued {k j : Nat} {topic : String} {number : Nat} (tracked : w.tracked? k topic = some (j, number)) :
      start.IssuedTo (steps.flatMap start.turns) k j topic number :=
    tracked_issuedTo kinds openings (start.turns_single steps) ((start.run_turns steps).symm ▸ tracked)
  have single (k k' : Nat) (topic topic' : String) (tag : Nat × Nat) (first : w.tracked? k topic = some tag)
      (second : w.tracked? k' topic' = some tag) : k = k' ∧ topic = topic' :=
    (issued first).unique (issued second)
  have consistent {j : Nat} {m : Manager} (seat : w.manager? j = some m) : m.Consistent := by
    obtain ⟨supportsDecay, rfl, _⟩ := run_opened_manager? seat
    exact Manager.run_consistent (Manager.new_consistent supportsDecay) _
  refine ⟨fun k j t topic number found tracked => ?_, single, ?_⟩
  · refine ⟨issued (tracked?_eq_some_iff.mpr ⟨t, found, tracked⟩), ?_⟩
    obtain ⟨m, seat, holds, _⟩ := run_sound (opened_sound kinds openings) steps k j t found
    obtain ⟨d, inside, terms⟩ := holds topic number tracked
    refine ⟨m, d, seat, inside, terms.name, terms.interval, ?_, Tagger.bumpDelivery_of_tracked holds tracked inside⟩
    cases shut : d.closed with
    | true => exact .inl rfl
    | false => exact .inr ((consistent seat _ number).mpr ⟨d, inside, terms.name, shut⟩)
  · intro k k' j m topic number number' seat first second isOpen isOpen'
    cases (consistent seat).number_unique isOpen isOpen'
    exact (single k k' topic topic (j, number) first second).1

/-- Two taggers track a topic at once: the one whose decaying tag was closed under it can bump it
no more, the other one can. -/
theorem superseded_tag_is_closed :
    let start := opened [.decaying] [.tagger 0 .default [], .tagger 0 .default []]
    let steps : List Step := [.event .all (.join "a"), .useHandle 0 .close, .event (.one 1) (.join "a")]
    start.IssuedTo (steps.flatMap start.turns) 1 0 "a" 1 ∧ ∃ t t' m,
      (start.run steps).observers[0]? = some (.tagger 0 t) ∧
      (start.run steps).observers[1]? = some (.tagger 0 t') ∧ (start.run steps).manager? 0 = some m ∧ ∀ peer,
        (t.bumpDelivery m peer "a").2 = .error (.manager (.closed (TagName.delivery "a"))) ∧
        (t'.bumpDelivery m peer "a").2 = .ok () := by
  intro start steps
  have first : (start.run steps).tracked? 0 "a" = some (0, 0) := by decide +kernel
  have second : (start.run steps).tracked? 1 "a" = some (0, 1) := by decide +kernel
  have shut : ((start.run steps).manager? 0).map (fun m => m.issued.map DecayingTag.closed) = some [true, false] := by
    decide +kernel
  obtain ⟨t, found, tracked⟩ := tracked?_eq_some_iff.mp first
  obtain ⟨t', found', tracked'⟩ := tracked?_eq_some_iff.mp second
  obtain ⟨owned, _⟩ := run_ownership [.decaying] [.tagger 0 .default [], .tagger 0 .default []] steps
  obtain ⟨_, m, d, seat, inside, named, _, _, bumped⟩ := owned 0 0 t "a" 0 found tracked
  obtain ⟨issued, m', d', seat', inside', _, _, _, bumped'⟩ := owned 1 0 t' "a" 1 found' tracked'
  cases seat.symm.trans seat'
  rw [seat, Option.map_some, Option.some.injEq] at shut
  have closed : d.closed = true := by
    have at_first := congrArg (·[0]?) shut
    simpa [inside] using at_first
  have still : d'.closed = false := by
    have at_second := congrArg (·[1]?) shut
    simpa [inside'] using at_second
  refine ⟨issued, t, t', m, found, found', seat, fun peer => ⟨?_, ?_⟩⟩
  · rw [bumped peer, closed, named]
    rfl
  · rw [bumped' peer, still]
    rfl

end Session.World
end PeerTags
