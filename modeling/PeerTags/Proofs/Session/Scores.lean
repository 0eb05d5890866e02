import PeerTags.Proofs.Session.Delivery
import PeerTags.Proofs.Session.Mirror
import PeerTags.Proofs.Session.Ownership
/-! Delivery scores on managers that taggers share. Each delivery tag belongs to the tagger
that registered it, and nobody else bumps it. So what the table shows under its name is
what integers without bounds make of all that was done with the tag since it was issued,
and that lies between one and the owner's cap. -/
namespace PeerTags.Session

open Manager (Action)

namespace Delivery

/-- What an action makes of a peer's score under the decaying tag of this number. -/
def acted (config : Config) (number : Nat) (peer : Peer) (score : Option Int) : Action → Option Int
  | .bump k p _ => if k = number ∧ p = peer then bumped config score else score
  | .remove k p => if k = number ∧ p = peer then none else score
  | .close k => if k = number then none else score
  | .advance intervals => (decayed config)^[intervals] score
  | _ => score

/-- A peer's score under a decaying tag after all that was done since it was issued. -/
def since (config : Config) (number : Nat) (peer : Peer) (actions : List Action) : Option Int :=
  actions.foldl (acted config number peer) none

/-- A score, if there is one, lies between one and the cap. -/
def Bounded (config : Config) (score : Option Int) : Prop := ∀ s, score = some s → 1 ≤ s ∧ s ≤ config.deliveryCap.toInt

variable {config : Config} {score : Option Int}

theorem Bounded.positive (h : Bounded config score) : Positive score := fun s same => (h s same).1

theorem none_bounded (config : Config) : Bounded config none := fun _ same => by cases same

theorem bumped_bounded (valid : config.Valid) (h : Bounded config score) : Bounded config (bumped config score) := by
  intro s same
  refine ⟨bumped_positive valid h.positive s same, ?_⟩
  cases same
  exact Int.min_le_right ..

theorem decayed_bounded (valid : config.Valid) (h : Bounded config score) : Bounded config (decayed config score) := by
  intro s same
  refine ⟨decayed_positive config score s same, ?_⟩
  obtain ⟨_, _, _, amount⟩ := valid
  obtain ⟨old, rfl, left⟩ := Option.bind_eq_some_iff.mp same
  have below := (h old rfl).2
  split at left
  · cases left
  · cases left
    omega

theorem acted_bounded (valid : config.Valid) (h : Bounded config score) (number : Nat) (peer : Peer) (a : Action) :
    Bounded config (acted config number peer score a) := by
  cases a with
  | bump k p delta =>
      simp only [acted]
      split
      · exact bumped_bounded valid h
      · exact h
  | remove k p =>
      simp only [acted]
      split
      · exact none_bounded config
      · exact h
  | close k =>
      simp only [acted]
      split
      · exact none_bounded config
      · exact h
  | advance intervals => exact Function.Iterate.rec (Bounded config) h (fun _ => decayed_bounded valid) intervals
  | _ => exact h

theorem foldl_acted_bounded (valid : config.Valid) (h : Bounded config score) (number : Nat) (peer : Peer)
    (actions : List Action) : Bounded config (actions.foldl (acted config number peer) score) := by
  induction actions generalizing score with
  | nil => exact h
  | cons a actions ih => exact ih (acted_bounded valid h number peer a)

end Delivery

open Delivery

/-! One decaying tag, as long as it is open. -/

section OneTag

variable {config : Config} {topic : String} {m : Manager} {number : Nat} {d : DecayingTag} {a : Action}

/-- The table shows of an open delivery tag what integers make of each action. -/
theorem score_act (valid : config.Valid) (c : m.Consistent) (found : m.openTag number = .ok d)
    (terms : Tagger.IssuedFor config topic d) (mirrored : m.Mirrors (TagName.delivery topic))
    (apart : a.tagged? ≠ some (TagName.delivery topic))
    (own : ∀ peer delta, a = .bump number peer delta → delta = config.deliveryBump) (kept : a ≠ .close number)
    (peer : Peer) (positive : Positive (Solo.score m peer topic)) :
    Solo.score (m.act a) peer topic = acted config number peer (Solo.score m peer topic) a := by
  have isOpen : m.OpenAs number (TagName.delivery topic) := terms.name ▸ Manager.openAs_of_openTag found
  have away {b : Action} {k : Nat} (uses : b.number? = some k) (other : k ≠ number) :
      Solo.score (m.act b) peer topic = Solo.score m peer topic := by
    refine congrArg (Option.map Amount.toInt) (Manager.tagValue_act_use uses (fun e opened same => ?_) peer)
    exact other (c.number_unique (same ▸ Manager.openAs_of_openTag opened) isOpen)
  cases a with
  | tag p name value => rw [Solo.score, Manager.tagValue_act_eq_of_not_tagged rfl apart]; rfl
  | untag p name => rw [Solo.score, Manager.tagValue_act_eq_of_not_tagged rfl apart]; rfl
  | register name interval decay bump =>
      rcases Manager.register_cases m name interval decay bump with ⟨_, issued⟩ | ⟨e, refused⟩
      · rw [Manager.act, issued]
        rfl
      · rw [Manager.act, refused]
        rfl
  | bump k p delta =>
      by_cases same : k = number
      · subst same
        cases own p delta rfl
        rw [Solo.score, Manager.act, Solo.tagValue_bump_of_open c found terms mirrored, acted]
        by_cases hit : p = peer
        · rw [if_pos hit, if_pos ⟨rfl, hit⟩, Option.map_some]
          exact toInt_capped valid positive
        · rw [if_neg hit, if_neg fun both => hit both.2, Solo.score]
      · rw [away rfl same, acted, if_neg fun both => same both.1]
  | remove k p =>
      by_cases same : k = number
      · subst same
        have before := Solo.tagValue_of_open c found terms mirrored peer
        have after := (Manager.remove_rewrites found p).own peer (terms.name ▸ before)
        rw [Table.get?_erase, terms.name, ← before] at after
        rw [Solo.score, Manager.act, after, acted]
        by_cases hit : p = peer
        · rw [if_pos hit.symm, if_pos ⟨rfl, hit⟩, Option.map_none]
        · rw [if_neg (Ne.symm hit), if_neg fun both => hit both.2, Solo.score]
      · rw [away rfl same, acted, if_neg fun both => same both.1]
  | close k =>
      have other : k ≠ number := fun same => kept (same ▸ rfl)
      rw [away rfl other, acted, if_neg other]
  | advance intervals => exact Solo.score_advance_of_open valid c found terms mirrored peer positive intervals
  | _ => rfl

/-- A tag that is open at the end was open all along, so all that was done with it counted. -/
theorem score_run (valid : config.Valid) (c : m.Consistent) (found : m.openTag number = .ok d)
    (terms : Tagger.IssuedFor config topic d) (mirrored : m.Mirrors (TagName.delivery topic)) {actions : List Action}
    (apart : ∀ a ∈ actions, a.tagged? ≠ some (TagName.delivery topic)) (calm : m.Calm actions)
    (own : ∀ peer delta, .bump number peer delta ∈ actions → delta = config.deliveryBump)
    (still : (m.run actions).OpenAs number (TagName.delivery topic)) (peer : Peer)
    (bounded : Bounded config (Solo.score m peer topic)) :
    Solo.score (m.run actions) peer topic =
      actions.foldl (acted config number peer) (Solo.score m peer topic) := by
  induction actions generalizing m d with
  | nil => rfl
  | cons a actions ih =>
      obtain ⟨d', place, continues⟩ := Manager.act_continues a (Manager.openTag_eq_ok_iff.mp found).1
      -- closing is for good, so the end tells that the tag is open at every step
      have found' : (m.act a).openTag number = .ok d' := Manager.openTag_of_open_later place still
      have kept : a ≠ .close number := by
        rintro rfl
        exact m.openTag_act_close number d' found'
      have apart_a := apart a List.mem_cons_self
      have first := score_act valid c found terms mirrored apart_a
        (fun p delta same => own p delta (same ▸ List.mem_cons_self)) kept peer bounded.positive
      have next : Bounded config (Solo.score (m.act a) peer topic) := by
        rw [first]
        exact acted_bounded valid bounded number peer a
      rw [Manager.run_cons, List.foldl_cons, ← first]
      exact ih (Manager.act_consistent c a) found' (terms.continues continues)
        (Manager.act_mirrors c mirrored apart_a calm.1) (fun b later => apart b (List.mem_cons_of_mem a later)) calm.2
        (fun p delta later => own p delta (List.mem_cons_of_mem a later)) still next

end OneTag

/-! Sessions in which nothing but the taggers scores. -/

/-- A step that scores through taggers at most: an event, a direct bump, intervals that pass, a
switch that is turned, or a decaying tag that is taken from a peer or closed. -/
def Step.Scoring : Step → Prop
  | .event .. | .bumpDelivery .. | .askTagger .. | .askManager .. => True
  | .command _ (.advance _) | .command _ (.rejectTags _) | .command _ (.rejectRegistrations _) => True
  | .command _ .clearCalls => True
  | .command .. => False
  | .useHandle _ (.bump ..) => False
  | .useHandle .. => True

namespace World

variable {kinds : List Kind} {openings : List Opening} {w : World} {past : List Step} {j : Nat} {m : Manager}

/-- What a scoring step asks of a manager: what a tagger asks because of an event, a bump that a
tagger is told to make, or something that neither sets a tag, nor registers one, nor scores. -/
theorem requests_cases {s : Step} (scoring : s.Scoring) {a : Action} (asked : a ∈ w.requests j s) :
    (∃ (target : Target) (e : Event) (k : Nat) (t : Tagger), s = .event target e ∧
      w.observers[k]? = some (.tagger j t) ∧ a ∈ t.requests e) ∨
    (∃ (k : Nat) (t : Tagger) (peer : Peer) (topic : String),
      w.observers[k]? = some (.tagger j t) ∧ a ∈ t.bumpRequest peer topic) ∨
    a.tagged? = none ∧ a.registered? = none ∧ ∀ number peer delta, a ≠ .bump number peer delta := by
  cases s with
  | event target event =>
      obtain ⟨k, t, found, requested⟩ := exists_of_mem_requests_event asked
      exact .inl ⟨target, event, k, t, rfl, found, requested⟩
  | bumpDelivery k peer topic =>
      simp only [requests] at asked
      split at asked
      · rename_i i t found
        split at asked
        · rename_i same
          subst same
          exact .inr (.inl ⟨k, t, peer, topic, found, asked⟩)
        · cases asked
      · cases asked
  | command i c =>
      simp only [requests] at asked
      split at asked
      · cases List.mem_singleton.mp asked
        cases c with
        | tag peer name value => cases scoring
        | untag peer name => cases scoring
        | register name interval decay bump => cases scoring
        | _ => exact .inr (.inr ⟨rfl, rfl, fun _ _ _ same => by cases same⟩)
      · cases asked
  | useHandle handle use =>
      simp only [requests] at asked
      split at asked
      · split at asked
        · cases use with
          | bump peer delta => cases scoring
          | remove peer =>
              cases List.mem_singleton.mp asked
              exact .inr (.inr ⟨rfl, rfl, fun _ _ _ same => by cases same⟩)
          | close =>
              cases List.mem_singleton.mp asked
              exact .inr (.inr ⟨rfl, rfl, fun _ _ _ same => by cases same⟩)
          | _ => cases asked
        · cases asked
      · cases asked
  | _ => cases asked

theorem requests_apart {s : Step} (scoring : s.Scoring) {a : Action} (asked : a ∈ w.requests j s) (topic : String) :
    a.tagged? ≠ some (TagName.delivery topic) := by
  intro tagged
  rcases requests_cases scoring asked with ⟨_, e, _, t, _, _, requested⟩ | ⟨_, t, _, _, _, requested⟩ | ⟨indirect, _⟩
  · obtain ⟨topic', mesh⟩ := (t.requests_asks e a requested).fromTopics.1 _ tagged
    exact TagName.mesh_ne_delivery topic' topic mesh.symm
  · obtain ⟨_, _, rfl⟩ := Tagger.mem_bumpRequest_iff.mp requested
    cases tagged
  · rw [indirect] at tagged
    cases tagged

/-- Whoever bumps a decaying tag tracks a topic with it, and bumps by its own amount. -/
theorem requests_bump {s : Step} (scoring : s.Scoring) {number : Nat} {peer : Peer} {delta : Amount}
    (asked : .bump number peer delta ∈ w.requests j s) : ∃ (k : Nat) (t : Tagger) (topic : String),
      w.observers[k]? = some (.tagger j t) ∧ t.tracked.get? topic = some number ∧ delta = t.config.deliveryBump := by
  rcases requests_cases scoring asked with ⟨_, e, k, t, _, found, requested⟩ |
    ⟨k, t, _, topic, found, requested⟩ | ⟨_, _, plain⟩
  · obtain ⟨topic, tracked, same⟩ := Tagger.bump_of_mem_requests requested
    exact ⟨k, t, topic, found, tracked, same⟩
  · obtain ⟨_, tracked, same⟩ := Tagger.mem_bumpRequest_iff.mp requested
    cases same
    exact ⟨k, t, topic, found, tracked, rfl⟩
  · exact absurd rfl (plain number peer delta)

theorem requests_unregistered {s : Step} (scoring : s.Scoring) (quiet : ∀ target event, s ≠ .event target event)
    {a : Action} (asked : a ∈ w.requests j s) : a.registered? = none := by
  rcases requests_cases scoring asked with ⟨_, _, _, _, same, _⟩ | ⟨_, _, _, _, _, requested⟩ | ⟨_, new, _⟩
  · exact absurd same (quiet _ _)
  · obtain ⟨_, _, rfl⟩ := Tagger.mem_bumpRequest_iff.mp requested
    rfl
  · exact new

theorem history_calm_of_scoring {w : World} (h : w.Sound) {steps : List Step} (scoring : ∀ s ∈ steps, s.Scoring)
    {m : Manager} (seat : w.manager? j = some m) : m.Calm (w.history j steps) := by
  induction steps generalizing w m with
  | nil => exact trivial
  | cons s steps ih =>
      have next : (w.step s).world.manager? j = some (m.run (w.requests j s)) := by
        rw [step_manager?, seat, Option.map_some]
      rw [history, Manager.calm_append]
      refine ⟨Manager.calm_of_capped fun number peer delta asked => ?_,
        ih (step_sound h s) (fun s' later => scoring s' (List.mem_cons_of_mem _ later)) next⟩
      obtain ⟨k, t, topic, found, tracked, _⟩ := requests_bump (scoring s List.mem_cons_self) asked
      obtain ⟨m', seat', holds, _⟩ := h k j t found
      cases seat.symm.trans seat'
      exact holds.capped tracked

theorem history_apart {w : World} {steps : List Step} (scoring : ∀ s ∈ steps, s.Scoring) (topic : String) :
    ∀ a ∈ w.history j steps, a.tagged? ≠ some (TagName.delivery topic) := by
  intro a asked
  obtain ⟨_, s, _, rfl, requested⟩ := exists_of_mem_history asked
  exact requests_apart (scoring s (List.mem_append_right _ List.mem_cons_self)) requested topic

theorem scoring_mirrors (scoring : ∀ s ∈ past, s.Scoring)
    (seat : ((opened kinds openings).run past).manager? j = some m) (topic : String) :
    m.Consistent ∧ m.Mirrors (TagName.delivery topic) := by
  obtain ⟨supportsDecay, rfl, first⟩ := run_opened_manager? seat
  have consistent := Manager.new_consistent supportsDecay
  exact ⟨Manager.run_consistent consistent _, Manager.run_mirrors consistent (Manager.new_mirrors supportsDecay _)
    (history_apart scoring topic) (history_calm_of_scoring (opened_sound kinds openings) scoring first)⟩

/-! Every decaying tag is some tagger's. -/

/-- What was issued after an observer's turn was issued before, or the observer has just registered it. -/
theorem notify_issued {event : Event} {k number : Nat} (seat : (w.notify event k).1.manager? j = some m)
    (inside : number < m.issued.length) : (∃ m', w.manager? j = some m' ∧ number < m'.issued.length) ∨
      ∃ topic, event = .join topic ∧ w.JoinIssues k j topic number := by
  rw [notify_manager?] at seat
  obtain ⟨before, seat', rfl⟩ := Option.map_eq_some_iff.mp seat
  by_cases joins : ∃ topic t, event = .join topic ∧ w.observers[k]? = some (.tagger j t) ∧ t.supportsDecay = true
  · obtain ⟨topic, t, rfl, found, supports⟩ := joins
    simp only [eventRequests, found, Option.elim_some, Observer.requests, if_true, Tagger.requests, supports,
      Manager.run_cons, Manager.run_nil, Manager.act] at inside
    rcases Manager.register_cases before (TagName.delivery topic) t.config.decayInterval (.fixed t.config.decayAmount)
      (.capped t.config.deliveryCap) with ⟨_, issued⟩ | ⟨e, refused⟩
    · rw [issued, List.length_append, List.length_singleton] at inside
      rcases Nat.lt_succ_iff_lt_or_eq.mp inside with old | rfl
      · exact .inl ⟨before, seat', old⟩
      · exact .inr ⟨topic, rfl, t, before, found, seat', supports, congrArg Prod.snd issued⟩
    · rw [refused] at inside
      exact .inl ⟨before, seat', inside⟩
  · -- without a tagger that supports decay and joins, nothing is registered in the turn
    refine .inl ⟨before, seat', ?_⟩
    rw [before.run_length_issued fun a asked => ?_] at inside
    · exact inside
    · obtain ⟨t, found, requested⟩ := mem_eventRequests_iff.mp asked
      cases t.requests_asks event a requested with
      | join topic =>
          simp only [Tagger.requests] at requested
          split at requested
          · rename_i supports
            exact absurd ⟨topic, t, rfl, found, supports⟩ joins
          · cases requested
      | _ => rfl

theorem issued_issuedTo (single : ∀ s ∈ past, s.Single) (scoring : ∀ s ∈ past, s.Scoring)
    (seat : ((opened kinds openings).run past).manager? j = some m) {number : Nat} (inside : number < m.issued.length) :
    ∃ k topic, (opened kinds openings).IssuedTo past k j topic number := by
  revert j m number
  refine single_induction (P := fun past => (∀ s ∈ past, s.Scoring) → ∀ {j m},
    ((opened kinds openings).run past).manager? j = some m → ∀ {number}, number < m.issued.length →
      ∃ k topic, (opened kinds openings).IssuedTo past k j topic number) ?_ ?_ ?_ single scoring
  · intro _ j m seat number inside
    obtain ⟨_, rfl⟩ := opened_manager? seat
    cases inside
  · intro past turn event ih scoring j m seat number inside
    rw [run_append] at seat
    rcases notify_issued seat inside with ⟨before, seat', old⟩ | ⟨topic, rfl, issues⟩
    · obtain ⟨k, topic, issued⟩ := ih (fun s member => scoring s (List.mem_append_left _ member)) seat' old
      exact ⟨k, topic, issued.append _⟩
    · exact ⟨turn, topic, past, [], rfl, issues⟩
  · intro past s quiet ih scoring j m seat number inside
    rw [run_append, run_cons, run_nil, step_manager?] at seat
    obtain ⟨before, seat', rfl⟩ := Option.map_eq_some_iff.mp seat
    rw [before.run_length_issued fun a asked => requests_unregistered
      (scoring s (List.mem_append_right _ List.mem_cons_self)) quiet asked] at inside
    obtain ⟨k, topic, issued⟩ := ih (fun s member => scoring s (List.mem_append_left _ member)) seat' inside
    exact ⟨k, topic, issued.append _⟩

theorem issued_owner (single : ∀ s ∈ past, s.Single) (scoring : ∀ s ∈ past, s.Scoring)
    (seat : ((opened kinds openings).run past).manager? j = some m) {number : Nat} {d : DecayingTag}
    (found : m.issued[number]? = some d) : ∃ k topic, d.name = TagName.delivery topic ∧
      (opened kinds openings).IssuedTo past k j topic number := by
  obtain ⟨k, topic, issued⟩ := issued_issuedTo single scoring seat (List.getElem?_eq_some_iff.mp found).1
  obtain ⟨before, after, rfl, issues⟩ := issued
  obtain ⟨_, _, d', _, seat', found', continues⟩ := issues.lasts after
  cases seat.symm.trans seat'
  cases found.symm.trans found'
  exact ⟨k, topic, continues.name, before, after, rfl, issues⟩

/-! Scores since the tag was issued. -/

/-- Only the tagger that a decaying tag was issued to bumps it, by its own amount. -/
theorem bumped_by_owner {before after : List Step} {k : Nat} {topic : String} {number : Nat}
    (single : ∀ s ∈ before ++ .event (.one k) (.join topic) :: after, s.Single)
    (scoring : ∀ s ∈ after, s.Scoring) (issues : ((opened kinds openings).run before).JoinIssues k j topic number)
    {t : Tagger} (found : ((opened kinds openings).run before).observers[k]? = some (.tagger j t)) {peer : Peer}
    {delta : Amount} (asked : .bump number peer delta ∈
      ((opened kinds openings).run (before ++ [.event (.one k) (.join topic)])).history j after) :
    delta = t.config.deliveryBump := by
  obtain ⟨between, s, rest, rfl, requested⟩ := exists_of_mem_history asked
  rw [← run_append, List.append_assoc, List.singleton_append] at requested
  obtain ⟨k', t', topic', found', tracked, rfl⟩ :=
    requests_bump (scoring s (List.mem_append_right _ List.mem_cons_self)) requested
  have earlier : ∀ s ∈ before ++ .event (.one k) (.join topic) :: between, s.Single := by
    intro s member
    refine single s ?_
    rw [← List.cons_append, ← List.append_assoc]
    exact List.mem_append_left _ member
  -- whoever bumps the tag tracks a topic with it just then, so it was issued to them
  have own := tracked_issuedTo kinds openings earlier (tracked?_eq_some_iff.mpr ⟨t', found', tracked⟩)
  obtain ⟨rfl, _⟩ := own.unique ⟨before, between, rfl, issues⟩
  obtain ⟨u, place, same⟩ := run_config (run_sound (opened_sound kinds openings) before) found
    (.event (.one k') (.join topic) :: between)
  rw [← run_append] at place
  cases place.symm.trans found'
  rw [same]

/-- As long as a delivery tag is open, the table shows under its name what integers make of all
that was done with it since it was issued. -/
theorem score_eq_since {before after : List Step} {k : Nat} {topic : String} {number : Nat}
    (single : ∀ s ∈ before ++ .event (.one k) (.join topic) :: after, s.Single)
    (scoring : ∀ s ∈ before ++ .event (.one k) (.join topic) :: after, s.Scoring)
    (issues : ((opened kinds openings).run before).JoinIssues k j topic number) {t : Tagger}
    (found : ((opened kinds openings).run before).observers[k]? = some (.tagger j t))
    (seat : ((opened kinds openings).run (before ++ .event (.one k) (.join topic) :: after)).manager? j = some m)
    (isOpen : m.OpenAs number (TagName.delivery topic)) (peer : Peer) :
    Solo.score m peer topic = since t.config number peer
      (((opened kinds openings).run (before ++ [.event (.one k) (.join topic)])).history j after) := by
  have now : ∀ s ∈ before ++ [.event (.one k) (.join topic)], s.Scoring := fun s member =>
    scoring s ((List.mem_append.mp member).elim (List.mem_append_left _)
      fun last => List.mem_append_right _ (List.mem_singleton.mp last ▸ List.mem_cons_self))
  have later : ∀ s ∈ after, s.Scoring := fun s member =>
    scoring s (List.mem_append_right _ (List.mem_cons_of_mem _ member))
  obtain ⟨u, first, place, seat', issued⟩ := issues.turn
  cases place.symm.trans found
  have joined : ((opened kinds openings).run (before ++ [.event (.one k) (.join topic)])).manager? j = some first := by
    rw [run_append]
    exact seat'
  have last : m = first.run (((opened kinds openings).run (before ++ [.event (.one k) (.join topic)])).history j
      after) := by
    rw [List.append_cons, run_append, run_manager?, joined] at seat
    exact (Option.some.inj seat).symm
  obtain ⟨consistent, mirrored⟩ := scoring_mirrors now joined topic
  have opened := Manager.openTag_eq_ok_iff.mpr ⟨issued, rfl⟩
  have terms : Tagger.IssuedFor t.config topic (Tagger.deliveryTag t.config topic) := ⟨rfl, rfl, rfl, rfl⟩
  have none : Solo.score first peer topic = none :=
    congrArg (Option.map Amount.toInt) (Solo.tagValue_of_open consistent opened terms mirrored peer)
  subst last
  rw [score_run t.valid consistent opened terms mirrored (history_apart later topic)
    (history_calm_of_scoring (run_sound (opened_sound kinds openings) _) later joined)
    (fun _ _ asked => bumped_by_owner single later issues found asked) isOpen peer (none ▸ none_bounded _), none]
  rfl

theorem score_bounded (single : ∀ s ∈ past, s.Single) (scoring : ∀ s ∈ past, s.Scoring)
    (seat : ((opened kinds openings).run past).manager? j = some m) {peer : Peer} {topic : String} {v : Amount}
    (value : m.tagValue peer (TagName.delivery topic) = some v) : ∃ number k t,
      m.OpenAs number (TagName.delivery topic) ∧
      ((opened kinds openings).run past).observers[k]? = some (.tagger j t) ∧
      (opened kinds openings).IssuedTo past k j topic number ∧
      1 ≤ v.toInt ∧ v.toInt ≤ t.config.deliveryCap.toInt := by
  obtain ⟨consistent, mirrored⟩ := scoring_mirrors scoring seat topic
  obtain ⟨number, named, _⟩ := Option.bind_eq_some_iff.mp ((mirrored peer).symm.trans value)
  have isOpen : m.OpenAs number (TagName.delivery topic) := (consistent _ number).mp named
  have ⟨d, place, name, _⟩ := isOpen
  obtain ⟨k, topic', name', before, after, rfl, issues⟩ := issued_owner single scoring seat place
  cases TagName.delivery_inj.mp (name'.symm.trans name)
  have ⟨t, _, found, _⟩ := issues
  obtain ⟨t', found', same⟩ := run_config (run_sound (opened_sound kinds openings) before) found
    (.event (.one k) (.join topic) :: after)
  rw [← run_append] at found'
  refine ⟨number, k, t', isOpen, found', ⟨before, after, rfl, issues⟩, ?_⟩
  have score := score_eq_since single scoring issues found seat isOpen peer
  rw [Solo.score, value, Option.map_some] at score
  rw [same]
  exact foldl_acted_bounded t.valid (none_bounded _) number peer _ _ score.symm

/-- What is kept with a decaying tag is what the table shows. -/
theorem kept_shown (single : ∀ s ∈ past, s.Single) (scoring : ∀ s ∈ past, s.Scoring)
    (seat : ((opened kinds openings).run past).manager? j = some m) {number : Nat} {d : DecayingTag} {peer : Peer}
    {v : Amount} (place : m.issued[number]? = some d) (kept : d.values.get? peer = some v) :
    m.tagValue peer d.name = some v ∧ ∃ topic, d.name = TagName.delivery topic := by
  obtain ⟨_, topic, name, _⟩ := issued_owner single scoring seat place
  obtain ⟨consistent, mirrored⟩ := scoring_mirrors scoring seat topic
  have isOpen : d.closed = false := by
    refine Bool.eq_false_iff.mpr fun shut => ?_
    obtain ⟨supportsDecay, rfl, _⟩ := run_opened_manager? seat
    rw [Manager.run_closedEmpty (fun _ _ found _ => by cases found) _ number d place shut] at kept
    cases kept
  exact ⟨name ▸ ((mirrored.agrees consistent peer).1 number d place name isOpen).trans kept, topic, name⟩

theorem turns_scoring (w : World) {steps : List Step} (scoring : ∀ s ∈ steps, s.Scoring) :
    ∀ s ∈ steps.flatMap w.turns, s.Scoring := by
  intro turn member
  obtain ⟨s, listed, part⟩ := List.mem_flatMap.mp member
  rcases mem_turns part with ⟨rfl, _⟩ | ⟨_, _, _, rfl⟩
  · exact scoring turn listed
  · trivial

/-- In every state of a session in which nothing but taggers scores, a score that the table shows
under the name of a delivery tag belongs to an open decaying tag, and it lies between one and
the cap of the tagger that registered that tag. The values that are kept with decaying tags are
the ones in the table, so none is zero or negative. And each score is what integers make of it
that have no bounds, so none ever stopped at the end of the range. -/
theorem run_scores_bounded {kinds : List Kind} {openings : List Opening} {steps : List Step}
    (scoring : ∀ s ∈ steps, s.Scoring) {j : Nat} {m : Manager}
    (seat : ((opened kinds openings).run steps).manager? j = some m) :
    let start := opened kinds openings
    let past := steps.flatMap start.turns
    (∀ peer topic v, m.tagValue peer (TagName.delivery topic) = some v →
      ∃ number k t, m.OpenAs number (TagName.delivery topic) ∧
        (start.run steps).observers[k]? = some (.tagger j t) ∧ start.IssuedTo past k j topic number ∧
        1 ≤ v.toInt ∧ v.toInt ≤ t.config.deliveryCap.toInt) ∧
    (∀ (number : Nat) d peer v, m.issued[number]? = some d → d.values.get? peer = some v →
      1 ≤ v.toInt ∧ m.tagValue peer d.name = some v) ∧
    ∀ before after k topic number t peer, past = before ++ .event (.one k) (.join topic) :: after →
      (start.run before).JoinIssues k j topic number → (start.run before).observers[k]? = some (.tagger j t) →
      m.OpenAs number (TagName.delivery topic) →
      (m.tagValue peer (TagName.delivery topic)).map Amount.toInt =
        since t.config number peer ((start.run (before ++ [.event (.one k) (.join topic)])).history j after) := by
  intro start past
  have single : ∀ s ∈ past, s.Single := start.turns_single steps
  have scoring' : ∀ s ∈ past, s.Scoring := start.turns_scoring scoring
  rw [← start.run_turns steps] at seat ⊢
  refine ⟨fun peer topic v value => score_bounded single scoring' seat value, fun number d peer v place kept => ?_,
    fun before after k topic number t peer split issues found isOpen => ?_⟩
  · obtain ⟨shown, topic, name⟩ := kept_shown single scoring' seat place kept
    obtain ⟨_, _, _, _, _, _, low, _⟩ := score_bounded single scoring' seat (name ▸ shown)
    exact ⟨low, shown⟩
  · exact score_eq_since (split ▸ single) (split ▸ scoring') issues found (split ▸ seat) isOpen peer

/-- A delivery tag of a low cap is closed and one of the greatest cap takes its name. Two bumps of the
greatest amount and an interval leave one less than that. -/
theorem greatest_bumps_stay_exact :
    let p : Peer := ⟨.identity, [], by decide⟩
    let low : Config := { Config.default with deliveryBump := 3, deliveryCap := 5 }
    let high : Config := { Config.default with deliveryBump := .greatest, deliveryCap := .greatest }
    let start := opened [.decaying] [.tagger 0 low [], .tagger 0 high []]
    let steps : List Step :=
      [.event .all (.join "a"), .event .all (.deliver ⟨p, none, ["a"], []⟩), .useHandle 0 .close,
        .event (.one 1) (.join "a"), .event .all (.deliver ⟨p, none, ["a", "a"], []⟩), .command 0 (.advance 1)]
    (∀ s ∈ steps, s.Scoring) ∧ ∃ m v number k t, (start.run steps).manager? 0 = some m ∧
      m.tagValue p (TagName.delivery "a") = some v ∧ v.toInt = 9223372036854775806 ∧
      m.OpenAs number (TagName.delivery "a") ∧ (start.run steps).observers[k]? = some (.tagger 0 t) ∧
      start.IssuedTo (steps.flatMap start.turns) k 0 "a" number ∧ 1 ≤ v.toInt ∧
      v.toInt ≤ t.config.deliveryCap.toInt := by
  intro p low high start steps
  have scoring : ∀ s ∈ steps, s.Scoring := by simp [steps, Step.Scoring]
  have shown : ((start.run steps).manager? 0).map (fun m => (m.tagValue p (TagName.delivery "a")).map Amount.toInt) =
      some (some 9223372036854775806) := by decide +kernel
  obtain ⟨m, seat, value⟩ := Option.map_eq_some_iff.mp shown
  obtain ⟨v, value, exactly⟩ := Option.map_eq_some_iff.mp value
  obtain ⟨number, k, t, isOpen, found, issued, bounds⟩ := (run_scores_bounded scoring seat).1 p "a" v value
  exact ⟨scoring, m, v, number, k, t, seat, value, exactly, isOpen, found, issued, bounds⟩

end World
end PeerTags.Session
