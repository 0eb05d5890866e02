import Mathlib.Algebra.BigOperators.Group.List.Basic
import Mathlib.Algebra.Order.BigOperators.Group.List
import Mathlib.Algebra.Order.Ring.Int
import Mathlib.Data.List.Dedup
import PeerTags.Proofs.Session.Direct
import PeerTags.Proofs.Session.Refinement
import PeerTags.Proofs.Session.Scores
/-! The figure that peers are ranked by, told from the inputs of a session of one tagger. A direct
peer that has connected has its own value, and each peer has what its meshes and its
deliveries earn it. There is no limit to the number of topics, so enough of them outweigh
the value of direct peers. The figure is a total of amounts and can leave their range; with the
default settings no tag is worth much, and more of them than can be kept would be needed. -/
namespace PeerTags

namespace Amount

theorem toInt_of_foldlM_add? {amounts : List Amount} {start sum : Amount}
    (total : amounts.foldlM add? start = some sum) : sum.toInt = start.toInt + (amounts.map toInt).sum := by
  induction amounts generalizing start with
  | nil => cases total; simp
  | cons a amounts ih =>
      rw [List.foldlM_cons] at total
      obtain ⟨next, added, total⟩ := Option.bind_eq_some_iff.mp total
      rw [ih total, ← add?_eq_some_iff.mp added, List.map_cons, List.sum_cons, Int.add_assoc]

/-- No sum on the way is greater than the last one, so the range is never left. -/
theorem exists_foldlM_add? {amounts : List Amount} (nonneg : ∀ a ∈ amounts, 0 ≤ a.toInt) (start : Amount)
    (fits : start.toInt + (amounts.map toInt).sum ≤ 9223372036854775807) :
    ∃ sum, amounts.foldlM add? start = some sum := by
  induction amounts generalizing start with
  | nil => exact ⟨start, rfl⟩
  | cons a amounts ih =>
      have nonneg' : ∀ b ∈ amounts, 0 ≤ b.toInt := fun b later => nonneg b (List.mem_cons_of_mem a later)
      have rest : 0 ≤ (amounts.map toInt).sum := List.sum_nonneg (List.forall_mem_map.mpr nonneg')
      have here : 0 ≤ a.toInt := nonneg a List.mem_cons_self
      have low : -9223372036854775808 ≤ start.toInt := start.least_le
      rw [List.map_cons, List.sum_cons] at fits
      let next : Amount := ⟨start.toInt + a.toInt, by omega, by omega⟩
      have added : start.add? a = some next := add?_eq_some_iff.mpr rfl
      rw [List.foldlM_cons, added]
      exact ih nonneg' next (by simp only [next]; omega)

end Amount

/-- The exact sum of a peer's values. -/
def Manager.worth (m : Manager) (peer : Peer) : Int := ((m.peerTags peer).map fun e => e.2.toInt).sum

/-- The figure that peers are ranked by, when there is one, is what they are worth. -/
theorem Manager.toInt_of_peerValue {m : Manager} {peer : Peer} {value : Amount}
    (figure : m.peerValue peer = some value) : value.toInt = m.worth peer := by
  rw [Amount.toInt_of_foldlM_add? figure, List.map_map]
  exact Int.zero_add _

namespace Session

/-- The topics that an input may tag a peer for. -/
def Input.topics : Input → List String
  | .event (.graft _ topic) => [topic]
  | .event (.deliver message) => message.topics
  | _ => []

/-- Each topic that is named, once. -/
def topics (inputs : List Input) : List String := (inputs.flatMap Input.topics).dedup

namespace Delivery

variable {config : Config} {peer : Peer} {topic : String}

/-- What bumps of the topic and intervals keep, from no score on, holds of the score at the end. -/
theorem run_induction {P : Option Int → Prop} {inputs : List Input}
    (bump : topic ∈ topics inputs → ∀ score, P score → P (bumped config score))
    (decay : ∀ score, P score → P (decayed config score)) (empty : P none) :
    P (run config peer topic inputs).score := by
  have kept (rest : List Input) (among : ∀ input ∈ rest, input ∈ inputs) (d : Delivery) (h : P d.score) :
      P (rest.foldl (take config peer topic) d).score := by
    induction rest generalizing d with
    | nil => exact h
    | cons input rest ih =>
        refine ih (fun later member => among later (List.mem_cons_of_mem input member)) _ (take_induction ?_ decay h)
        rintro message rfl named
        exact bump (List.mem_dedup.mpr (List.mem_flatMap.mpr ⟨_, among _ List.mem_cons_self, named⟩))
  exact kept inputs (fun _ member => member) fresh empty

/-- Nobody has a score for a topic that no delivery names. -/
theorem run_score_of_unnamed {inputs : List Input} (unnamed : topic ∉ topics inputs) :
    (run config peer topic inputs).score = none :=
  run_induction (P := (· = none)) (fun named => absurd named unnamed) (fun _ empty => by rw [empty]; rfl) rfl

theorem run_bounded (valid : config.Valid) (peer : Peer) (topic : String) (inputs : List Input) :
    Bounded config (run config peer topic inputs).score :=
  run_induction (P := Bounded config) (fun _ _ => bumped_bounded valid) (fun _ => decayed_bounded valid)
    (none_bounded config)

end Delivery

namespace Solo

/-- The topics in whose meshes the peer is. -/
def meshes (peer : Peer) (inputs : List Input) : List String :=
  (topics inputs).filter fun topic => lastInMesh peer topic (accepted false inputs) = some (.graft peer topic)

/-- The topics that the peer has a score for, with the score. -/
def scores (config : Config) (peer : Peer) (inputs : List Input) : List (String × Int) :=
  (topics inputs).filterMap fun topic => (Delivery.run config peer topic inputs).score.map (topic, ·)

/-- What meshes and deliveries earn the peer. -/
def earned (config : Config) (peer : Peer) (inputs : List Input) : Int :=
  (meshes peer inputs).length * config.meshPeerValue.toInt + ((scores config peer inputs).map Prod.snd).sum

/-- The tags that the inputs give a peer, listed. -/
def expectedTags (config : Config) (direct : List Peer) (peer : Peer) (inputs : List Input) : List (String × Int) :=
  (if peer ∈ direct ∧ .connect peer ∈ accepted false inputs then
      [(TagName.direct, config.directPeerValue.toInt)] else []) ++
    ((meshes peer inputs).map fun topic => (TagName.mesh topic, config.meshPeerValue.toInt)) ++
    (scores config peer inputs).map fun e => (TagName.delivery e.1, e.2)

theorem mem_meshes_iff {peer : Peer} {inputs : List Input} {topic : String} :
    topic ∈ meshes peer inputs ↔ lastInMesh peer topic (accepted false inputs) = some (.graft peer topic) := by
  rw [meshes, List.mem_filter, decide_eq_true_eq, and_iff_right_iff_imp]
  intro grafted
  exact List.mem_dedup.mpr
    (List.mem_flatMap.mpr ⟨_, mem_accepted (mem_of_lastInMesh grafted), List.mem_singleton_self topic⟩)

theorem mem_scores_iff {config : Config} {peer : Peer} {inputs : List Input} {topic : String} {score : Int} :
    (topic, score) ∈ scores config peer inputs ↔ (Delivery.run config peer topic inputs).score = some score := by
  simp only [scores, List.mem_filterMap, Option.map_eq_some_iff, Prod.mk.injEq]
  constructor
  · rintro ⟨_, _, _, scored, rfl, rfl⟩
    exact scored
  · intro scored
    refine ⟨topic, ?_, score, scored, rfl, rfl⟩
    by_contra unnamed
    rw [Delivery.run_score_of_unnamed unnamed] at scored
    cases scored

theorem mem_expectedTags_iff {config : Config} {direct : List Peer} {peer : Peer} {inputs : List Input} {name : String}
    {value : Int} : (name, value) ∈ expectedTags config direct peer inputs ↔
      Expected config direct inputs peer name value := by
  simp only [expectedTags, List.mem_append, List.mem_map, Prod.mk.injEq, mem_meshes_iff]
  constructor
  · rintro ((listed | ⟨topic, grafted, rfl, rfl⟩) | ⟨⟨topic, score⟩, scored, rfl, rfl⟩)
    · split at listed
      · rename_i connected
        cases List.mem_singleton.mp listed
        exact .direct connected.1 connected.2
      · cases listed
    · exact .mesh topic grafted
    · exact .delivery topic score (mem_scores_iff.mp scored)
  · intro expected
    cases expected with
    | direct member connected =>
        rw [if_pos ⟨member, connected⟩]
        exact .inl (.inl (List.mem_singleton_self _))
    | mesh topic grafted => exact .inl (.inr ⟨topic, grafted, rfl, rfl⟩)
    | delivery topic _ scored => exact .inr ⟨(topic, value), mem_scores_iff.mpr scored, rfl, rfl⟩

theorem nodup_topics (inputs : List Input) : (topics inputs).Nodup := List.nodup_dedup _

theorem nodup_meshes (peer : Peer) (inputs : List Input) : (meshes peer inputs).Nodup := (nodup_topics inputs).filter _

theorem nodup_scores (config : Config) (peer : Peer) (inputs : List Input) : (scores config peer inputs).Nodup := by
  refine (nodup_topics inputs).filterMap fun topic topic' e he he' => ?_
  obtain ⟨_, _, rfl⟩ := Option.map_eq_some_iff.mp he
  obtain ⟨_, _, same⟩ := Option.map_eq_some_iff.mp he'
  exact (congrArg Prod.fst same).symm

section

variable {config : Config} {direct : List Peer} {inputs : List Input}
  (untouched : ∀ peer, .event (.graft peer "direct") ∉ inputs ∧ .event (.prune peer "direct") ∉ inputs)

include untouched

/-- No name is given twice: the three kinds of tags have names of their own. -/
theorem nodup_expectedTags (peer : Peer) : (expectedTags config direct peer inputs).Nodup := by
  have meshNames : ((meshes peer inputs).map fun topic => (TagName.mesh topic, config.meshPeerValue.toInt)).Nodup :=
    (nodup_meshes peer inputs).map fun _ _ same => TagName.mesh_inj.mp (congrArg Prod.fst same)
  have deliveryNames : ((scores config peer inputs).map fun e => (TagName.delivery e.1, e.2)).Nodup :=
    (nodup_scores config peer inputs).map fun e e' same => by
      obtain ⟨names, values⟩ := Prod.mk.inj same
      exact Prod.ext (TagName.delivery_inj.mp names) values
  refine List.Nodup.append (List.Nodup.append ?_ meshNames ?_) deliveryNames ?_
  · split
    · exact List.nodup_singleton _
    · exact List.nodup_nil
  · intro e own mesh
    obtain ⟨topic, grafted, rfl⟩ := List.mem_map.mp mesh
    have shared : topic = "direct" := by
      split at own
      · have same := congrArg Prod.fst (List.mem_singleton.mp own)
        exact TagName.mesh_inj.mp (same.trans TagName.mesh_direct.symm)
      · cases own
    subst shared
    exact (untouched peer).1 (mem_accepted (mem_of_lastInMesh (mem_meshes_iff.mp grafted)))
  · intro e other delivery
    obtain ⟨⟨topic, score⟩, _, rfl⟩ := List.mem_map.mp delivery
    rcases List.mem_append.mp other with own | mesh
    · split at own
      · have same := congrArg Prod.fst (List.mem_singleton.mp own)
        exact TagName.mesh_ne_delivery "direct" topic (TagName.mesh_direct.trans same.symm)
      · cases own
    · obtain ⟨topic', _, same⟩ := List.mem_map.mp mesh
      exact TagName.mesh_ne_delivery topic' topic (congrArg Prod.fst same)

theorem peerTags_perm (valid : config.Valid) (peer : Peer) :
    ((((start config valid direct).run inputs).manager.peerTags peer).map fun e => (e.1, e.2.toInt)).Perm
      (expectedTags config direct peer inputs) := by
  refine (List.perm_ext_iff_of_nodup ?_ (nodup_expectedTags untouched peer)).mpr fun e => ?_
  · refine List.Pairwise.map _ (fun a b less same => ?_) (Manager.peerTags_pairwise _ peer)
    rw [(Prod.mk.inj same).1] at less
    exact absurd less (String.lt_irrefl _)
  · rw [mem_expectedTags_iff, ← tagValue_iff_expected valid direct untouched, Manager.mem_map_peerTags_iff]

end

/-- Each score counts for no more than the cap. -/
theorem sum_scores_le {config : Config} (valid : config.Valid) (peer : Peer) (inputs : List Input) :
    0 ≤ ((scores config peer inputs).map Prod.snd).sum ∧
      ((scores config peer inputs).map Prod.snd).sum ≤
        (scores config peer inputs).length * config.deliveryCap.toInt := by
  have bounded : ∀ e ∈ scores config peer inputs, 1 ≤ e.2 ∧ e.2 ≤ config.deliveryCap.toInt := fun e member =>
    Delivery.run_bounded valid peer e.1 inputs e.2 (mem_scores_iff.mp member)
  generalize scores config peer inputs = listed at bounded
  induction listed with
  | nil => exact ⟨Int.le_refl 0, by simp⟩
  | cons e listed ih =>
      obtain ⟨low, high⟩ := bounded e List.mem_cons_self
      obtain ⟨low', high'⟩ := ih fun e' later => bounded e' (List.mem_cons_of_mem e later)
      have longer : ((listed.length + 1 : Nat) : Int) * config.deliveryCap.toInt =
          listed.length * config.deliveryCap.toInt + config.deliveryCap.toInt := by
        rw [Int.natCast_succ, Int.add_mul, Int.one_mul]
      rw [List.map_cons, List.sum_cons, List.length_cons, longer]
      omega

/-- By default a mesh earns twenty and a score fifteen at the most. -/
theorem earned_default_le (peer : Peer) (inputs : List Input) :
    0 ≤ earned .default peer inputs ∧
      earned .default peer inputs ≤ 20 * (meshes peer inputs).length + 15 * (scores .default peer inputs).length := by
  have bounds := sum_scores_le (by decide : Config.default.Valid) peer inputs
  have mesh : Config.default.meshPeerValue.toInt = 20 := rfl
  have cap : Config.default.deliveryCap.toInt = 15 := rfl
  rw [cap] at bounds
  rw [earned, mesh]
  omega

section

variable {config : Config} {direct : List Peer} {inputs : List Input} {m : Manager} {peer : Peer}

/-- A peer is worth the value of direct peers, if it is one that has connected, and what it has
earned. -/
theorem worth_eq
    (tags : ((m.peerTags peer).map fun e => (e.1, e.2.toInt)).Perm (expectedTags config direct peer inputs)) :
    m.worth peer = (if peer ∈ direct ∧ .connect peer ∈ accepted false inputs then config.directPeerValue.toInt else 0) +
      earned config peer inputs := by
  have sum : m.worth peer = ((expectedTags config direct peer inputs).map Prod.snd).sum := by
    rw [← (tags.map Prod.snd).sum_eq, List.map_map]
    rfl
  have meshSum : ((meshes peer inputs).map fun _ => config.meshPeerValue.toInt).sum =
      (meshes peer inputs).length * config.meshPeerValue.toInt := by
    rw [List.map_const', List.sum_replicate, Int.nsmul_eq_mul]
  rw [sum]
  simp only [expectedTags, List.map_append, List.map_map, List.sum_append, earned, Function.comp_def, meshSum]
  split <;> simp [add_assoc]

theorem expectedTags_nonneg : ∀ e ∈ expectedTags .default direct peer inputs, 0 ≤ e.2 := by
  have directValue : 0 ≤ Config.default.directPeerValue.toInt := by decide
  have meshValue : 0 ≤ Config.default.meshPeerValue.toInt := by decide
  rintro ⟨name, value⟩ member
  cases mem_expectedTags_iff.mp member with
  | direct _ _ => exact directValue
  | mesh _ _ => exact meshValue
  | delivery topic _ scored =>
      have bounds := Delivery.run_bounded (by decide : Config.default.Valid) peer topic inputs value scored
      exact (by decide : (0 : Int) ≤ 1).trans bounds.1

/-! By default no tag is worth much. -/

variable (tags : ((m.peerTags peer).map fun e => (e.1, e.2.toInt)).Perm (expectedTags .default direct peer inputs))

include tags

/-- One tag is worth a thousand and every other one twenty at the most. -/
theorem worth_le : m.worth peer ≤ 1000 + 20 * (m.peerTags peer).length := by
  have count := tags.length_eq
  have most := (earned_default_le peer inputs).2
  have directValue : Config.default.directPeerValue.toInt = 1000 := rfl
  rw [worth_eq tags, directValue]
  simp only [expectedTags, List.length_append, List.length_map] at count
  split <;> omega

/-- A peer's tags have a total, in whatever order they are added up, as soon as what the peer is
worth is in the range. -/
theorem exists_total? (fits : m.worth peer ≤ 9223372036854775807) {values : List Amount}
    (all : values.Perm ((m.peerTags peer).map Prod.snd)) :
    ∃ value, Amount.total? values = some value ∧ value.toInt = m.worth peer := by
  have sum : (values.map Amount.toInt).sum = m.worth peer := by
    rw [(all.map Amount.toInt).sum_eq, List.map_map]
    rfl
  have nonneg : ∀ a ∈ values, 0 ≤ a.toInt := by
    intro a listed
    obtain ⟨e, tagged, rfl⟩ := List.mem_map.mp (all.mem_iff.mp listed)
    exact expectedTags_nonneg _ (tags.mem_iff.mp (List.mem_map_of_mem tagged))
  have zero : (0 : Amount).toInt = 0 := rfl
  rw [← sum, ← Int.zero_add (values.map Amount.toInt).sum, ← zero] at fits ⊢
  obtain ⟨value, total⟩ := Amount.exists_foldlM_add? nonneg 0 fits
  exact ⟨value, total, Amount.toInt_of_foldlM_add? total⟩

end

/-- In a session of one tagger with the default settings, short of grafts and prunes in the topic
that shares its mesh tag with direct peers, a direct peer that has connected is worth a thousand
and what it has earned, any other peer what it has earned. So a direct peer is ranked above
another just as long as that one has not earned a thousand more, which takes as many meshes, at
twenty each, and scores, at fifteen at the most, as come to a thousand. The figure that peers are
ranked by is what they are worth, since their tags can be added up in whatever order without
leaving the range: with no more than `2 ^ 58` of them, that is, and at 32 bytes for a name and a
value 64-bit addresses do not reach so many. -/
theorem direct_outranks_iff (direct : List Peer) {inputs : List Input}
    (untouched : ∀ peer, .event (.graft peer "direct") ∉ inputs ∧ .event (.prune peer "direct") ∉ inputs) :
    let w := (World.solo .default direct).run (inputs.map Input.step)
    ∃ m, w.manager? 0 = some m ∧
      (∀ peer, m.worth peer = (if peer ∈ direct ∧ .connect peer ∈ accepted false inputs then 1000 else 0) +
        earned .default peer inputs) ∧
      (∀ peer value, m.peerValue peer = some value → value.toInt = m.worth peer) ∧
      (∀ peer, (m.peerTags peer).length ≤ 2 ^ 58 → ∀ values : List Amount,
        values.Perm ((m.peerTags peer).map Prod.snd) →
          ∃ value, Amount.total? values = some value ∧ value.toInt = m.worth peer) ∧
      ∀ d p, d ∈ direct → .connect d ∈ accepted false inputs → p ∉ direct →
        (m.worth p < m.worth d ↔ earned .default p inputs < 1000 + earned .default d inputs) ∧
        (20 * (meshes p inputs).length + 15 * (scores .default p inputs).length < 1000 →
          m.worth p < m.worth d) ∧
        ∀ vp vd, m.peerValue p = some vp → m.peerValue d = some vd → (vp < vd ↔ m.worth p < m.worth d) := by
  intro w
  have valid : Config.default.Valid := by decide
  obtain ⟨seat, _⟩ := (start_shownBy valid direct).run inputs
  let m := ((start .default valid direct).run inputs).manager
  have tags (peer : Peer) : ((m.peerTags peer).map fun e => (e.1, e.2.toInt)).Perm
      (expectedTags .default direct peer inputs) := peerTags_perm untouched valid peer
  have worth (peer : Peer) : m.worth peer =
      (if peer ∈ direct ∧ .connect peer ∈ accepted false inputs then 1000 else 0) + earned .default peer inputs :=
    worth_eq (tags peer)
  refine ⟨m, seat, worth, fun _ _ => Manager.toInt_of_peerValue, fun peer few values all => ?_,
    fun d p member connected other => ?_⟩
  · have most := worth_le (tags peer)
    exact exists_total? (tags peer) (by omega) all
  have ofDirect := worth d
  have ofOther := worth p
  rw [if_pos ⟨member, connected⟩] at ofDirect
  rw [if_neg fun both => other both.1, Int.zero_add] at ofOther
  refine ⟨by rw [ofDirect, ofOther], fun few => ?_, fun vp vd figureP figureD => ?_⟩
  · have most := (earned_default_le p inputs).2
    have least := (earned_default_le d inputs).1
    rw [ofDirect, ofOther]
    omega
  · rw [Amount.lt_iff, Manager.toInt_of_peerValue figureP, Manager.toInt_of_peerValue figureD]

/-- A peer that is in two meshes and delivered in both topics stays below a direct one. -/
theorem two_meshes_do_not_outrank :
    let d : Peer := ⟨.identity, [1], by decide⟩
    let p : Peer := ⟨.identity, [], by decide⟩
    let inputs : List Input := [.event (.join "a"), .event (.join "b"), .event (.connect d), .event (.connect p),
      .event (.graft p "a"), .event (.graft p "b"), .event (.deliver ⟨p, none, ["a", "b", "a"], []⟩), .advance 1]
    ∃ m, ((World.solo .default [d]).run (inputs.map Input.step)).manager? 0 = some m ∧
      m.worth p = 41 ∧ m.worth d = 1000 ∧ m.worth p < m.worth d ∧
      m.peerValue p = some 41 ∧ m.peerValue d = some 1000 := by
  intro d p inputs
  have untouched : ∀ peer, .event (.graft peer "direct") ∉ inputs ∧ .event (.prune peer "direct") ∉ inputs := by
    intro peer
    simp [inputs]
  obtain ⟨m, seat, worth, _, figure, ranks⟩ := direct_outranks_iff [d] untouched
  have counts : (((World.solo .default [d]).run (inputs.map Input.step)).manager? 0).map (fun m =>
      ((m.peerTags p).length, (m.peerTags d).length)) = some (3, 1) := by decide +kernel
  rw [seat] at counts
  obtain ⟨threeTags, oneTag⟩ := Prod.mk.inj (Option.some.inj counts)
  have below := (ranks d p List.mem_cons_self (by decide +kernel) (by decide +kernel)).2.1 (by decide +kernel)
  have ofOther : m.worth p = 41 := by rw [worth]; decide +kernel
  have ofDirect : m.worth d = 1000 := by rw [worth]; decide +kernel
  obtain ⟨v, totalP, exactP⟩ := figure p (threeTags.trans_le (by decide)) _ (.refl _)
  obtain ⟨v', totalD, exactD⟩ := figure d (oneTag.trans_le (by decide)) _ (.refl _)
  have forty : v = 41 := Amount.ext (exactP.trans ofOther)
  have thousand : v' = 1000 := Amount.ext (exactD.trans ofDirect)
  exact ⟨m, seat, ofOther, ofDirect, below, forty ▸ totalP, thousand ▸ totalD⟩

/-! Too many meshes. -/

/-- A direct peer connects and another peer is grafted, in one topic after another. -/
def grafts (d p : Peer) (topics : List String) : List Event := .connect d :: topics.map (.graft p)

section

variable {d p : Peer} {named : List String}

theorem mem_grafts_iff {peer : Peer} {topic : String} :
    .graft peer topic ∈ grafts d p named ↔ peer = p ∧ topic ∈ named := by
  simp only [grafts, List.mem_cons, reduceCtorEq, List.mem_map, Event.graft.injEq, false_or]
  constructor
  · rintro ⟨topic, listed, rfl, rfl⟩
    exact ⟨rfl, listed⟩
  · rintro ⟨rfl, listed⟩
    exact ⟨topic, listed, rfl, rfl⟩

theorem prune_not_mem_grafts (peer : Peer) (topic : String) : .prune peer topic ∉ grafts d p named := by
  simp [grafts]

theorem lastInMesh_grafts_iff {peer : Peer} {topic : String} :
    lastInMesh peer topic (grafts d p named) = some (.graft peer topic) ↔ peer = p ∧ topic ∈ named := by
  rw [← mem_grafts_iff (d := d)]
  constructor
  · exact mem_of_lastInMesh
  · intro member
    have kept : .graft peer topic ∈
        (grafts d p named).filter fun e => e = .graft peer topic ∨ e = .prune peer topic :=
      List.mem_filter.mpr ⟨member, by simp⟩
    obtain ⟨e, last⟩ := Option.isSome_iff_exists.mp (List.getLast?_isSome.mpr (List.ne_nil_of_mem kept))
    obtain ⟨occurs, concerned⟩ := List.mem_filter.mp (List.mem_of_getLast? last)
    rcases of_decide_eq_true concerned with rfl | rfl
    · exact last
    · exact absurd occurs (prune_not_mem_grafts peer topic)

/-- Each mesh earns its peer the same. -/
theorem earned_grafts (config : Config) (once : named.Nodup) (peer : Peer) :
    earned config peer ((grafts d p named).map .event) =
      if peer = p then named.length * config.meshPeerValue.toInt else 0 := by
  have unscored : scores config peer ((grafts d p named).map .event) = [] := by
    refine List.filterMap_eq_nil_iff.mpr fun topic _ => ?_
    have still (topics : List String) (s : Delivery) :
        ((topics.map (.graft p)).map Input.event).foldl (Delivery.take config peer topic) s = s := by
      induction topics with
      | nil => rfl
      | cons _ _ ih => exact ih
    exact congrArg (fun s => s.score.map (topic, ·)) (still named .fresh)
  have joined : topics ((grafts d p named).map .event) = named := by
    have each : ((grafts d p named).map .event).flatMap Input.topics = named := by
      simp [grafts, List.flatMap_map, Input.topics]
    rw [topics, each, once.dedup]
  have inMesh : meshes peer ((grafts d p named).map .event) = if peer = p then named else [] := by
    rw [meshes, joined]
    simp only [accepted_events, lastInMesh_grafts_iff]
    split
    · rename_i same
      exact List.filter_eq_self.mpr fun topic listed => decide_eq_true ⟨same, listed⟩
    · rename_i other
      exact List.filter_eq_nil_iff.mpr fun topic _ both => other (of_decide_eq_true both).1
  rw [earned, unscored, inMesh]
  split <;> simp

end

/-- Fifty-one meshes are worth more than being a direct peer. -/
theorem fifty_one_meshes_outrank : ¬ ∀ (direct : List Peer) (inputs : List Input) (d p : Peer) (m : Manager),
    (∀ peer, .event (.graft peer "direct") ∉ inputs ∧ .event (.prune peer "direct") ∉ inputs) →
    (∀ on, .rejectTags on ∉ inputs ∧ .rejectRegistrations on ∉ inputs) →
    ((World.solo .default direct).run (inputs.map Input.step)).manager? 0 = some m →
    d ∈ direct → .event (.connect d) ∈ inputs → p ∉ direct →
      ∀ vp vd, m.peerValue p = some vp → m.peerValue d = some vd → vp < vd := by
  intro outranks
  let d : Peer := ⟨.identity, [1], by decide⟩
  let p : Peer := ⟨.identity, [], by decide⟩
  let letters : List String := (List.range 51).map fun i => String.singleton (Char.ofNat (65 + i))
  have once : letters.Nodup := by decide +kernel
  have other : "direct" ∉ letters := by decide +kernel
  let inputs : List Input := (grafts d p letters).map .event
  have untouched : ∀ peer, .event (.graft peer "direct") ∉ inputs ∧ .event (.prune peer "direct") ∉ inputs := by
    have occurs {e : Event} : .event e ∈ inputs ↔ e ∈ grafts d p letters :=
      List.mem_map_of_injective fun _ _ => Input.event.inj
    intro peer
    rw [occurs, occurs, mem_grafts_iff]
    exact ⟨fun grafted => other grafted.2, prune_not_mem_grafts peer "direct"⟩
  have plain : ∀ on, .rejectTags on ∉ inputs ∧ .rejectRegistrations on ∉ inputs := by simp [inputs]
  have valid : Config.default.Valid := by decide
  obtain ⟨seat, _⟩ := (start_shownBy valid [d]).run inputs
  let m := ((start .default valid [d]).run inputs).manager
  have tags (peer : Peer) : ((m.peerTags peer).map fun e => (e.1, e.2.toInt)).Perm
      (expectedTags .default [d] peer inputs) := peerTags_perm untouched valid peer
  have worthP : m.worth p = 1020 := by
    rw [worth_eq (tags p), earned_grafts _ once]
    decide +kernel
  have worthD : m.worth d = 1000 := by
    rw [worth_eq (tags d), earned_grafts _ once]
    decide +kernel
  obtain ⟨vp, figureP, exactP⟩ := exists_total? (tags p) (by omega) (.refl _)
  obtain ⟨vd, figureD, exactD⟩ := exists_total? (tags d) (by omega) (.refl _)
  have below : vp.toInt < vd.toInt :=
    outranks [d] inputs d p m untouched plain seat List.mem_cons_self List.mem_cons_self (by decide)
      vp vd figureP figureD
  omega

end Solo
end Session
end PeerTags
