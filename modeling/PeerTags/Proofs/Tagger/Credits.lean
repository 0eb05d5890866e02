import PeerTags.Proofs.Tagger.Reactions
/-! What the topics of a delivery do to the scores of the peer that passed the message on. A
topic that reaches an open decaying tag is credited once for each time it is named, and the
cap meets the sum of all its bumps just once; a topic that reaches none does nothing. -/
namespace PeerTags

theorem Manager.openTag_congr {m m' : Manager} {number : Nat} (same : m'.issued[number]? = m.issued[number]?) :
    m'.openTag number = m.openTag number := by
  rw [Manager.openTag, Manager.openTag, same]

namespace Tagger

/-- A score after so many bumps on these terms, in integers without bounds. -/
def credited (config : Config) (times : Nat) (score : Option Amount) : Int :=
  min (score.elim 0 Amount.toInt + times * config.deliveryBump.toInt) config.deliveryCap.toInt

/-- Neither end of the range is met: a bump adds at least one, and the cap is in the range. -/
theorem toInt_bumped {config : Config} (valid : config.Valid) (score : Option Amount) :
    (min (score.getD 0 + config.deliveryBump) config.deliveryCap).toInt = credited config 1 score := by
  obtain ⟨_, bump, _, _⟩ := valid
  have most := config.deliveryCap.le_greatest
  rw [Amount.toInt_min, Amount.toInt_add, credited]
  cases score with
  | none =>
      have zero : (0 : Amount).toInt = 0 := rfl
      simp only [Option.getD_none, Option.elim_none, zero]
      omega
  | some v =>
      have low := v.least_le
      simp only [Option.getD_some, Option.elim_some]
      omega

/-- Bumps under a cap add up: the cap may wait until the last of them. -/
theorem credited_credited {config : Config} (valid : config.Valid) {score : Option Amount} {v : Amount}
    {times : Nat} (first : v.toInt = credited config times score) (more : Nat) :
    credited config (more + 1) (some v) = credited config (more + 1 + times) score := by
  obtain ⟨_, bump, _, _⟩ := valid
  have rest : 0 ≤ (more : Int) * config.deliveryBump.toInt := Int.mul_nonneg (by omega) (by omega)
  simp only [credited, Option.elim_some, first, Int.natCast_add, Int.natCast_one, Int.add_mul, Int.one_mul]
  omega

theorem reaches_iff {t : Tagger} {m : Manager} {topic : String} : t.reaches m topic = true ↔
    ∃ number d, t.tracked.get? topic = some number ∧ m.openTag number = .ok d := by
  constructor
  · intro reached
    cases tracked : t.tracked.get? topic with
    | none =>
        rw [reaches_of_untracked tracked] at reached
        cases reached
    | some number =>
        cases found : m.openTag number with
        | error e =>
            rw [reaches_of_error tracked found] at reached
            cases reached
        | ok d => exact ⟨number, d, rfl, found⟩
  · rintro ⟨number, d, tracked, found⟩
    exact reaches_of_openTag tracked found

/-- The topics of one message, credited to a peer: each that reaches an open decaying tag as
often as it is named, with its tag and the table in step; everything else is as it was. -/
structure Credited (t : Tagger) (m : Manager) (peer : Peer) (topics : List String) (m' : Manager) : Prop where
  handles : m.SameHandles m'
  switches : m'.switches = m.switches
  served : ∀ topic ∈ topics, ∀ number d, t.tracked.get? topic = some number → m.openTag number = .ok d →
    ∃ score : Amount, score.toInt = credited t.config (topics.count topic) (d.values.get? peer) ∧
      m'.openTag number = .ok { d with values := d.values.insert peer score } ∧
      m'.tagValue peer (TagName.delivery topic) = some score
  untouched : ∀ number : Nat, (∀ topic ∈ topics, t.reaches m topic = true → t.tracked.get? topic ≠ some number) →
    m'.issued[number]? = m.issued[number]?
  elsewhere : ∀ p name, (∀ topic ∈ topics, t.reaches m topic = true → ¬ (p = peer ∧ name = TagName.delivery topic)) →
    m'.tagValue p name = m.tagValue p name

variable {t : Tagger} {m m' : Manager} {peer : Peer} {topic : String} {topics : List String}

theorem Credited.nothing (t : Tagger) (m : Manager) (peer : Peer) : t.Credited m peer [] m where
  handles := .refl m
  switches := rfl
  served := by
    intro topic member
    cases member
  untouched := by
    intro number _
    rfl
  elsewhere := by
    intro p name _
    rfl

/-- Two topics never share a decaying tag, which has the name of one of them. -/
theorem Holds.topic_unique (h : t.Holds m) {topic' : String} {number : Nat}
    (tracked : t.tracked.get? topic = some number) (tracked' : t.tracked.get? topic' = some number) :
    topic = topic' := by
  obtain ⟨d, found, terms⟩ := h topic number tracked
  obtain ⟨d', found', terms'⟩ := h topic' number tracked'
  cases found.symm.trans found'
  exact TagName.delivery_inj.mp (terms.name.symm.trans terms'.name)

/-- A topic that reaches nothing may be left out. -/
theorem Credited.skip (missed : t.reaches m topic = false) (rest : t.Credited m peer topics m') :
    t.Credited m peer (topic :: topics) m' where
  handles := rest.handles
  switches := rest.switches
  served := by
    intro topic' member number d tracked found
    have other : topic ≠ topic' := by
      rintro rfl
      rw [reaches_of_openTag tracked found] at missed
      cases missed
    rw [List.count_cons_of_ne other]
    exact rest.served topic' ((List.mem_cons.mp member).resolve_left (Ne.symm other)) number d tracked found
  untouched := by
    intro number away
    apply rest.untouched
    intro topic' member
    exact away topic' (List.mem_cons_of_mem topic member)
  elsewhere := by
    intro p name away
    apply rest.elsewhere
    intro topic' member
    exact away topic' (List.mem_cons_of_mem topic member)

section Reached

variable {number : Nat} {d : DecayingTag}

theorem bumpRequest_of_tracked (tracked : t.tracked.get? topic = some number) (m : Manager) (peer : Peer) :
    m.run (t.bumpRequest peer topic) = (m.bump number peer t.config.deliveryBump).1 := by
  rw [bumpRequest, tracked]
  rfl

/-- One bump of a tracked tag that is open. -/
theorem bump_credited (h : t.Holds m) (tracked : t.tracked.get? topic = some number)
    (found : m.openTag number = .ok d) (peer : Peer) :
    ∃ first : Amount, first.toInt = credited t.config 1 (d.values.get? peer) ∧
      (m.bump number peer t.config.deliveryBump).1.openTag number =
        .ok { d with values := d.values.insert peer first } ∧
      (∀ k, k ≠ number → (m.bump number peer t.config.deliveryBump).1.issued[k]? = m.issued[k]?) ∧
      ∀ p name, (m.bump number peer t.config.deliveryBump).1.tagValue p name =
        if p = peer ∧ name = TagName.delivery topic then some first else m.tagValue p name := by
  obtain ⟨d', inside, terms⟩ := h topic number tracked
  cases inside.symm.trans (Manager.openTag_eq_ok_iff.mp found).1
  have after : (m.bump number peer t.config.deliveryBump).1 =
      ((m.note (.bump peer d.name t.config.deliveryBump)).setValues number (d.values.insert peer
        (min ((d.values.get? peer).getD 0 + t.config.deliveryBump) t.config.deliveryCap))).setTag peer d.name
        (min ((d.values.get? peer).getD 0 + t.config.deliveryBump) t.config.deliveryCap) := by
    rw [Manager.bump_of_ok found (by rw [terms.bump]; rfl)]
  rw [after]
  refine ⟨_, toInt_bumped t.valid (d.values.get? peer), Manager.openTag_setValues_self found _, ?_, ?_⟩
  · intro k other
    exact (Manager.issued_setValues m number _ k).trans (if_neg other)
  · intro p name
    rw [Manager.tagValue_setTag, terms.name]
    rfl

end Reached

/-- A topic that reaches an open tag, before the others: they find its score raised already. -/
theorem Credited.cons (h : t.Holds m) {number : Nat} {d : DecayingTag} (tracked : t.tracked.get? topic = some number)
    (found : m.openTag number = .ok d)
    (rest : t.Credited (m.bump number peer t.config.deliveryBump).1 peer topics m') :
    t.Credited m peer (topic :: topics) m' := by
  obtain ⟨first, once, bumped, others, shown⟩ := bump_credited h tracked found peer
  have same := m.bump_sameHandles number peer t.config.deliveryBump
  have switches := m.act_switches (.bump number peer t.config.deliveryBump)
  have reached := reaches_of_openTag tracked found
  have alike := reaches_sameHandles same t
  rw [Manager.act] at switches
  generalize (m.bump number peer t.config.deliveryBump).1 = next at rest bumped others shown same switches alike
  refine ⟨same.trans rest.handles, rest.switches.trans switches, ?_, ?_, ?_⟩
  · intro topic' member number' d' tracked' found'
    by_cases again : topic' = topic
    · subst again
      cases tracked.symm.trans tracked'
      cases found.symm.trans found'
      by_cases named : topic' ∈ topics
      · -- the later bumps of the same topic start from what the first one leaves
        obtain ⟨score, equal, opened, value⟩ := rest.served topic' named number _ tracked bumped
        refine ⟨score, ?_, ?_, value⟩
        · obtain ⟨more, count⟩ := Nat.exists_eq_add_one.mpr (List.count_pos_iff.mpr named)
          rw [equal, Table.get?_insert, if_pos rfl, List.count_cons_self, count]
          exact credited_credited t.valid once more
        · rw [opened, Table.insert_insert]
      · refine ⟨first, ?_, ?_, ?_⟩
        · rw [List.count_cons_self, List.count_eq_zero_of_not_mem named]
          exact once
        · refine (Manager.openTag_congr (rest.untouched number ?_)).trans bumped
          intro later member _ tracked'
          exact named (h.topic_unique tracked tracked' ▸ member)
        · refine (rest.elsewhere peer (TagName.delivery topic') ?_).trans ((shown _ _).trans (if_pos ⟨rfl, rfl⟩))
          intro later member _ here
          exact named (TagName.delivery_inj.mp here.2 ▸ member)
    · have apart : number' ≠ number := by
        rintro rfl
        exact again (h.topic_unique tracked' tracked)
      rw [List.count_cons_of_ne (Ne.symm again)]
      exact rest.served topic' ((List.mem_cons.mp member).resolve_left again) number' d' tracked'
        ((Manager.openTag_congr (others number' apart)).trans found')
  · intro number' away
    have apart : number' ≠ number := by
      rintro rfl
      exact away topic List.mem_cons_self reached tracked
    refine (rest.untouched number' ?_).trans (others number' apart)
    intro later member
    rw [alike]
    exact away later (List.mem_cons_of_mem topic member)
  · intro p name away
    refine (rest.elsewhere p name ?_).trans ((shown p name).trans (if_neg (away topic List.mem_cons_self reached)))
    intro later member
    rw [alike]
    exact away later (List.mem_cons_of_mem topic member)

/-- The whole of a delivery. -/
theorem requests_credited (h : t.Holds m) (peer : Peer) (topics : List String) :
    t.Credited m peer topics (m.run (topics.flatMap (t.bumpRequest peer))) := by
  induction topics generalizing m with
  | nil => exact .nothing t m peer
  | cons topic topics ih =>
      have rest := ih (h.run (t.bumpRequest peer topic))
      rw [List.flatMap_cons, Manager.run_append]
      cases tracked : t.tracked.get? topic with
      | none =>
          have same : m.run (t.bumpRequest peer topic) = m := by rw [bumpRequest, tracked, Manager.run_nil]
          rw [same] at rest ⊢
          exact rest.skip (reaches_of_untracked tracked m)
      | some number =>
          rw [bumpRequest_of_tracked tracked] at rest ⊢
          cases found : m.openTag number with
          | error e =>
              rw [Manager.bump_of_error found] at rest ⊢
              exact rest.skip (reaches_of_error tracked found)
          | ok d => exact rest.cons h tracked found

section Permuted

variable {m'' : Manager} {topics' : List String}

/-- However the topics are ordered, one that reaches an open tag is left with the same score. -/
theorem Credited.same_score (h : t.Credited m peer topics m') (h' : t.Credited m peer topics' m'')
    (same : topics'.Perm topics) (member : topic ∈ topics) (reached : t.reaches m topic = true) :
    ∃ (number : Nat) (d : DecayingTag) (score : Amount), t.tracked.get? topic = some number ∧
      m'.openTag number = .ok { d with values := d.values.insert peer score } ∧
      m''.openTag number = .ok { d with values := d.values.insert peer score } ∧
      m'.tagValue peer (TagName.delivery topic) = some score ∧
      m''.tagValue peer (TagName.delivery topic) = some score := by
  obtain ⟨number, d, tracked, found⟩ := reaches_iff.mp reached
  obtain ⟨score, equal, opened, shown⟩ := h.served topic member number d tracked found
  obtain ⟨score', equal', opened', shown'⟩ := h'.served topic (same.mem_iff.mpr member) number d tracked found
  rw [same.count_eq] at equal'
  cases Amount.ext (equal'.trans equal.symm)
  exact ⟨number, d, score, tracked, opened, opened', shown, shown'⟩

theorem Credited.tags_eq (h : t.Credited m peer topics m') (h' : t.Credited m peer topics' m'')
    (same : topics'.Perm topics) : m''.tags = m'.tags := by
  apply Table.ext
  intro ⟨p, name⟩
  show m''.tagValue p name = m'.tagValue p name
  by_cases here : ∃ topic ∈ topics, t.reaches m topic = true ∧ p = peer ∧ name = TagName.delivery topic
  · obtain ⟨topic, member, reached, rfl, rfl⟩ := here
    obtain ⟨_, _, _, _, _, _, shown, shown'⟩ := h.same_score h' same member reached
    exact shown'.trans shown.symm
  · have away : ∀ topic ∈ topics, t.reaches m topic = true → ¬ (p = peer ∧ name = TagName.delivery topic) := by
      intro topic member reached at_it
      exact here ⟨topic, member, reached, at_it⟩
    rw [h.elsewhere p name away, h'.elsewhere p name fun topic member => away topic (same.mem_iff.mp member)]

theorem Credited.issued_eq (h : t.Credited m peer topics m') (h' : t.Credited m peer topics' m'')
    (same : topics'.Perm topics) : m''.issued = m'.issued := by
  apply List.ext_getElem?
  intro number
  by_cases here : ∃ topic ∈ topics, t.reaches m topic = true ∧ t.tracked.get? topic = some number
  · obtain ⟨topic, member, reached, tracked⟩ := here
    obtain ⟨_, _, _, tracked', opened, opened', _, _⟩ := h.same_score h' same member reached
    cases tracked.symm.trans tracked'
    rw [(Manager.openTag_eq_ok_iff.mp opened).1, (Manager.openTag_eq_ok_iff.mp opened').1]
  · have away : ∀ topic ∈ topics, t.reaches m topic = true → t.tracked.get? topic ≠ some number := by
      intro topic member reached at_it
      exact here ⟨topic, member, reached, at_it⟩
    rw [h.untouched number away, h'.untouched number fun topic member => away topic (same.mem_iff.mp member)]

/-- What topics leave is settled by how often each is named; the records alone tell their order. -/
theorem Credited.unique (h : t.Credited m peer topics m') (h' : t.Credited m peer topics' m'')
    (same : topics'.Perm topics) : m'' = { m' with calls := m''.calls } := by
  have tags := h.tags_eq h' same
  have issued := h.issued_eq h' same
  have registry : m''.registry = m'.registry := h'.handles.registry.trans h.handles.registry.symm
  obtain ⟨supports, tagging, registering⟩ := Manager.switches_eq_iff.mp (h'.switches.trans h.switches.symm)
  cases m'
  cases m''
  simp only at tags issued registry supports tagging registering
  rw [tags, issued, registry, supports, tagging, registering]

end Permuted

end Tagger
end PeerTags
