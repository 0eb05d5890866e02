import PeerTags.Options.Basic
import PeerTags.Proofs.Peer
import PeerTags.Proofs.Text.Blank
/-! The direct peers are exactly those whose texts are listed. White space around a text does not
count, and neither do the order of the texts and their repetitions. The first text that names no
peer is the error. -/
namespace PeerTags

/-! Results collected until the first failure. -/

section Collect

variable {ε α β : Type} {f : α → Except ε β}

theorem exists_mapM_ok {as : List α} (fine : ∀ a ∈ as, ∃ b, f a = .ok b) :
    ∃ bs, as.mapM f = .ok bs ∧ ∀ b, b ∈ bs ↔ ∃ a ∈ as, f a = .ok b := by
  induction as with
  | nil => exact ⟨[], rfl, by simp⟩
  | cons a as ih =>
      obtain ⟨first, others⟩ := List.forall_mem_cons.mp fine
      obtain ⟨b, found⟩ := first
      obtain ⟨bs, rest, members⟩ := ih others
      refine ⟨b :: bs, ?_, ?_⟩
      · rw [List.mapM_cons, found, rest]
        rfl
      · intro c
        simp [members, found, eq_comm]

theorem mapM_append_error {before after : List α} {a : α} {e : ε} (fine : ∀ b ∈ before, ∃ r, f b = .ok r)
    (failed : f a = .error e) : (before ++ a :: after).mapM f = .error e := by
  obtain ⟨bs, done, _⟩ := exists_mapM_ok fine
  rw [List.mapM_append, done, List.mapM_cons, failed]
  rfl

/-- If a property does not hold of all elements, there is a first of which it does not. -/
theorem forall_or_first (holds : α → Prop) (as : List α) : (∀ a ∈ as, holds a) ∨
    ∃ before a after, as = before ++ a :: after ∧ (∀ b ∈ before, holds b) ∧ ¬ holds a := by
  induction as with
  | nil => exact .inl nofun
  | cons a as ih =>
      by_cases first : holds a
      · obtain all | ⟨before, c, after, rfl, all, fails⟩ := ih
        · exact .inl (List.forall_mem_cons.mpr ⟨first, all⟩)
        · exact .inr ⟨a :: before, c, after, rfl, List.forall_mem_cons.mpr ⟨first, all⟩, fails⟩
      · exact .inr ⟨[], a, as, rfl, nofun, first⟩

end Collect

/-! Texts of peers. -/

/-- A text, white space around it left out, is the base-58 text of the bytes of a peer. -/
def Names (text : String) (bytes : List UInt8) : Prop :=
  PeerBytes bytes ∧ ∃ core, Text.Trimmed text.toList core ∧ Base58.Spells core bytes

/-- A text is that of a peer, with any white space around it. -/
def Printed (p : Peer) (text : String) : Prop :=
  ∃ front back, text.toList = front ++ p.text.toList ++ back ∧ (∀ c ∈ front, Text.isBlank c) ∧
    ∀ c ∈ back, Text.isBlank c

theorem Base58.Spells.isBlank_eq_false {core : List Char} {bytes : List UInt8} (spells : Spells core bytes) {c : Char}
    (member : c ∈ core) : Text.isBlank c = false := by
  have visible : (alphabet.all fun c => !Text.isBlank c) = true := by decide
  simpa using List.all_eq_true.mp visible c (spells.mem_alphabet member)

theorem Printed.names {p : Peer} {text : String} (printed : Printed p text) : Names text p.bytes := by
  obtain ⟨front, back, split, before, after⟩ := printed
  refine ⟨p.peerBytes_bytes, p.text.toList, ?_, p.spells_text⟩
  rw [split]
  apply Text.Trimmed.intro before after
  · intro c first
    exact p.spells_text.isBlank_eq_false (List.mem_of_head? first)
  · intro c last
    exact p.spells_text.isBlank_eq_false (List.mem_of_getLast? last)

theorem names_iff_ofText? {text : String} {p : Peer} :
    Names text p.bytes ↔ Peer.ofText? (Text.trim text.toList) = some p := by
  rw [Peer.ofText?_eq_some_iff]
  constructor
  · rintro ⟨_, core, trimmed, spells⟩
    rwa [Text.trim_eq_iff.mpr trimmed]
  · intro spells
    exact ⟨p.peerBytes_bytes, _, Text.trim_eq_iff.mp rfl, spells⟩

/-- A text names one peer at most. -/
theorem Names.unique {text : String} {p q : Peer} (left : Names text p.bytes) (right : Names text q.bytes) : p = q :=
  Option.some.inj ((names_iff_ofText?.mp left).symm.trans (names_iff_ofText?.mp right))

theorem exists_names_iff {text : String} : (∃ bytes, Names text bytes) ↔ ∃ p : Peer, Names text p.bytes := by
  constructor
  · rintro ⟨bytes, names⟩
    obtain ⟨p, rfl⟩ := Peer.peerBytes_iff.mp names.1
    exact ⟨p, names⟩
  · rintro ⟨p, names⟩
    exact ⟨_, names⟩

namespace Options

theorem readPeer_eq_ok_iff {text : String} {p : Peer} : readPeer text = .ok p ↔ Names text p.bytes := by
  rw [names_iff_ofText?, readPeer]
  cases Peer.ofText? (Text.trim text.toList) <;> simp

theorem exists_readPeer_iff {text : String} : (∃ p, readPeer text = .ok p) ↔ ∃ bytes, Names text bytes := by
  rw [exists_names_iff]
  exact exists_congr fun p => readPeer_eq_ok_iff

theorem readPeer_eq_error_iff {text : String} {e : Config.Error} :
    readPeer text = .error e ↔ (¬ ∃ bytes, Names text bytes) ∧ e = .invalidPeer text := by
  rw [← exists_readPeer_iff, readPeer]
  cases Peer.ofText? (Text.trim text.toList) <;> simp [eq_comm]

variable {o : Options}

theorem exists_peers_ok (named : ∀ t ∈ o.directPeers.getD [], ∃ bytes, Names t bytes) :
    ∃ S, o.peers = .ok S ∧ ∀ p, S.contains p ↔ ∃ t ∈ o.directPeers.getD [], Names t p.bytes := by
  have fine : ∀ t ∈ o.directPeers.getD [], ∃ p, readPeer t = .ok p := by
    intro t member
    exact exists_readPeer_iff.mpr (named t member)
  obtain ⟨ps, read, members⟩ := exists_mapM_ok fine
  refine ⟨PeerSet.ofList ps, ?_, ?_⟩
  · rw [peers, read]
    rfl
  · intro p
    rw [PeerSet.contains_ofList, decide_eq_true_iff, members]
    simp only [readPeer_eq_ok_iff]

theorem peers_first_nameless {before after : List String} {t : String}
    (listed : o.directPeers.getD [] = before ++ t :: after) (named : ∀ b ∈ before, ∃ bytes, Names b bytes)
    (nameless : ¬ ∃ bytes, Names t bytes) : o.peers = .error (.invalidPeer t) := by
  have fine : ∀ b ∈ before, ∃ p, readPeer b = .ok p := by
    intro b member
    exact exists_readPeer_iff.mpr (named b member)
  rw [peers, listed, mapM_append_error fine (readPeer_eq_error_iff.mpr ⟨nameless, rfl⟩)]
  rfl

theorem peers_eq_error_iff {e : Config.Error} : o.peers = .error e ↔
    ∃ before t after, o.directPeers.getD [] = before ++ t :: after ∧ (∀ b ∈ before, ∃ bytes, Names b bytes) ∧
      (¬ ∃ bytes, Names t bytes) ∧ e = .invalidPeer t := by
  constructor
  · intro stopped
    obtain named | ⟨before, t, after, listed, named, nameless⟩ :=
      forall_or_first (∃ bytes, Names · bytes) (o.directPeers.getD [])
    · obtain ⟨S, read, _⟩ := exists_peers_ok named
      cases read.symm.trans stopped
    · refine ⟨before, t, after, listed, named, nameless, ?_⟩
      cases stopped.symm.trans (peers_first_nameless listed named nameless)
      rfl
  · rintro ⟨before, t, after, listed, named, nameless, rfl⟩
    exact peers_first_nameless listed named nameless

theorem peers_eq_ok_iff {S : PeerSet} : o.peers = .ok S ↔ (∀ t ∈ o.directPeers.getD [], ∃ bytes, Names t bytes) ∧
    ∀ p, S.contains p ↔ ∃ t ∈ o.directPeers.getD [], Names t p.bytes := by
  obtain named | ⟨before, t, after, listed, named, nameless⟩ :=
    forall_or_first (∃ bytes, Names · bytes) (o.directPeers.getD [])
  · obtain ⟨S', read, members⟩ := exists_peers_ok named
    constructor
    · intro same
      cases read.symm.trans same
      exact ⟨named, members⟩
    · rintro ⟨_, members'⟩
      have same : S' = S := PeerSet.ext_contains fun p => (members p).trans (members' p).symm
      rw [read, same]
  · constructor
    · intro read
      cases (peers_first_nameless listed named nameless).symm.trans read
    · rintro ⟨all, _⟩
      have member : t ∈ o.directPeers.getD [] := by
        rw [listed]
        exact List.mem_append_right before List.mem_cons_self
      exact absurd (all t member) nameless

/-- What is printed for the members of a set is read as that set. -/
theorem peers_of_printed {S : PeerSet} (members : ∀ t ∈ o.directPeers.getD [], ∃ p, S.contains p ∧ Printed p t)
    (all : ∀ p, S.contains p → ∃ t ∈ o.directPeers.getD [], Printed p t) : o.peers = .ok S := by
  apply peers_eq_ok_iff.mpr
  constructor
  · intro t listed
    obtain ⟨p, _, printed⟩ := members t listed
    exact ⟨p.bytes, printed.names⟩
  · intro p
    constructor
    · intro member
      obtain ⟨t, listed, printed⟩ := all p member
      exact ⟨t, listed, printed.names⟩
    · rintro ⟨t, listed, names⟩
      -- the text may have been listed for another member, but it names only one peer
      obtain ⟨q, member, printed⟩ := members t listed
      cases names.unique printed.names
      exact member

/-- The peers are read exactly if every text names one, and then they are those that the texts name. Otherwise
the first text that names none is given back as it came. What is printed is read back, whatever white space,
order and repetitions there are, and no two peers are printed alike. -/
theorem peers_exactly_listed (o : Options) :
    let texts := o.directPeers.getD []
    (∀ S, o.peers = .ok S ↔ (∀ t ∈ texts, ∃ bytes, Names t bytes) ∧
      ∀ p, S.contains p ↔ ∃ t ∈ texts, Names t p.bytes) ∧
    (∀ e, o.peers = .error e ↔ ∃ before t after, texts = before ++ t :: after ∧
      (∀ b ∈ before, ∃ bytes, Names b bytes) ∧ (¬ ∃ bytes, Names t bytes) ∧ e = .invalidPeer t) ∧
    (∀ S : PeerSet, (∀ t ∈ texts, ∃ p, S.contains p ∧ Printed p t) → (∀ p, S.contains p → ∃ t ∈ texts, Printed p t) →
      o.peers = .ok S) ∧
    (∀ p s, Peer.ofText? s = some p ↔ p.text.toList = s) ∧
    ∀ p q : Peer, p.text = q.text → p = q := by
  intro texts
  refine ⟨?_, ?_, ?_, ?_, ?_⟩
  · intro S
    exact peers_eq_ok_iff
  · intro e
    exact peers_eq_error_iff
  · intro S members all
    exact peers_of_printed members all
  · intro p s
    exact Peer.ofText?_iff_text
  · intro p q same
    exact Peer.text_inj same

/-- Two peers, both with an empty digest, are read from three texts. There is a space after the first of them and
a no-break space before the second. -/
theorem three_texts_of_two_peers :
    let plain : Peer := ⟨.identity, [], by decide⟩
    let hashed : Peer := ⟨.sha256, [], by decide⟩
    let S := PeerSet.ofList [hashed, plain]
    let texts := ["11 ", "\u00a02NT", "11"]
    (∀ t ∈ texts, ∃ p, S.contains p ∧ Printed p t) ∧ (∀ p, S.contains p → ∃ t ∈ texts, Printed p t) ∧
      { (default : Options) with directPeers := some texts }.peers = .ok S ∧
      Peer.ofText? "2NT".toList = some hashed ∧ (plain.text = hashed.text → plain = hashed) := by
  intro plain hashed S texts
  have member (p : Peer) : S.contains p = true ↔ p = hashed ∨ p = plain := by
    rw [PeerSet.contains_ofList, decide_eq_true_iff, List.mem_cons, List.mem_singleton]
  have first : Printed plain "11 " := ⟨[], [' '], by decide, nofun, List.forall_mem_singleton.mpr rfl⟩
  have second : Printed hashed "\u00a02NT" := ⟨['\u00a0'], [], by decide, List.forall_mem_singleton.mpr rfl, nofun⟩
  have third : Printed plain "11" := ⟨[], [], by decide, nofun, nofun⟩
  have members : ∀ t ∈ texts, ∃ p, S.contains p ∧ Printed p t := by
    have plain_inside := (member plain).mpr (.inr rfl)
    intro t listed
    simp only [texts, List.mem_cons, List.not_mem_nil, or_false] at listed
    obtain rfl | rfl | rfl := listed
    · exact ⟨plain, plain_inside, first⟩
    · exact ⟨hashed, (member hashed).mpr (.inl rfl), second⟩
    · exact ⟨plain, plain_inside, third⟩
  have all : ∀ p, S.contains p → ∃ t ∈ texts, Printed p t := by
    intro p inside
    obtain rfl | rfl := (member p).mp inside
    · exact ⟨"\u00a02NT", by decide, second⟩
    · exact ⟨"11", by decide, third⟩
  obtain ⟨_, _, read, inverse, distinct⟩ := peers_exactly_listed { (default : Options) with directPeers := some texts }
  exact ⟨members, all, read S members all, (inverse hashed "2NT".toList).mpr (by decide), distinct plain hashed⟩

end Options
end PeerTags
