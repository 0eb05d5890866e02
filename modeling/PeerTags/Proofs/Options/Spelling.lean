import PeerTags.Proofs.Options.CommandLine
/-! The two spellings of a number. Its value follows an equals sign, or is the next argument. In
the second spelling the value is taken in later, which no argument in between can tell (`Alike`).
But a value with a minus sign is never taken for one there, so that a negative number can be
given in the first spelling only. -/
namespace PeerTags

theorem bind_eq_ok_iff {ε α β : Type} {x : Except ε α} {f : α → Except ε β} {b : β} :
    x.bind f = .ok b ↔ ∃ a, x = .ok a ∧ f a = .ok b := by
  cases x <;> simp [Except.bind]

theorem map_eq_ok_iff {ε α β : Type} {x : Except ε α} {f : α → β} {b : β} :
    x.map f = .ok b ↔ ∃ a, x = .ok a ∧ f a = b := by
  cases x <;> simp [Except.map]

namespace Options

/-- A field's option alone, its value to follow. -/
def Field.option (f : Field) : String := String.ofList ('-' :: '-' :: f.flag.toList)

/-- A field's option with a value after an equals sign. -/
def Field.assign (f : Field) (value : List Char) : String :=
  String.ofList ('-' :: '-' :: (f.flag.toList ++ '=' :: value))

theorem Field.eq_flag_of_ofFlag? {name : List Char} {f : Field} (found : ofFlag? name = some f) :
    name = f.flag.toList := by
  rw [ofFlag?] at found
  have same := List.find?_some found
  exact (of_decide_eq_true same).symm

namespace CommandLine

/-- None of the arguments is the field's option, in either spelling. -/
def Unset (f : Field) (args : List String) : Prop :=
  ∀ arg ∈ args, arg ≠ f.option ∧ ∀ value, arg ≠ f.assign value

/-! Forms of arguments. -/

theorem shape_bare {name : List Char} (plain : '=' ∉ name) (nonempty : name ≠ []) :
    shape ('-' :: '-' :: name) = .long name none := by
  have all : ∀ c ∈ name, (decide (c ≠ '=')) = true := by
    intro c member
    exact decide_eq_true fun same => plain (same ▸ member)
  have dropped : name.dropWhile (· ≠ '=') = [] := by
    rw [← List.append_nil name, List.dropWhile_append_of_pos all]
    rfl
  rw [shape]
  · rw [dropped]
  · exact nonempty

theorem shape_option (f : Field) : shape f.option.toList = .long f.flag.toList none := by
  have nonempty : f.flag.toList ≠ [] := by
    cases f <;> exact List.cons_ne_nil _ _
  rw [Field.option, String.toList_ofList, shape_bare f.equals_notMem_flag nonempty]

theorem shape_assign (f : Field) (value : List Char) :
    shape (f.assign value).toList = .long f.flag.toList (some value) := by
  rw [Field.assign, String.toList_ofList, shape_long f.equals_notMem_flag]

theorem shape_endOfOptions_iff {arg : List Char} : shape arg = .endOfOptions ↔ arg = ['-', '-'] := by
  constructor
  · intro form
    unfold shape at form
    split at form
    · rfl
    · split at form <;> cases form
    · cases form
    · cases form
  · rintro rfl
    rfl

theorem eq_of_shape_long {arg name : List Char} {value : Option (List Char)} (form : shape arg = .long name value) :
    arg = '-' :: '-' :: (name ++ value.elim [] ('=' :: ·)) := by
  unfold shape at form
  split at form
  · cases form
  · rename_i s _
    split at form
    · rename_i none
      cases form
      rw [Option.elim_none, List.append_nil]
    · rename_i c rest found
      obtain rfl : c = '=' := by
        have head := List.head?_dropWhile_not (· ≠ '=') s
        rw [found] at head
        simpa using head
      cases form
      rw [Option.elim_some, ← found, List.takeWhile_append_dropWhile]
  · cases form
  · cases form

theorem Unset.shape_ne {f : Field} {args : List String} (unset : Unset f args) {arg : String} (member : arg ∈ args)
    (value : Option (List Char)) : shape arg.toList ≠ .long f.flag.toList value := by
  intro form
  obtain ⟨alone, assigned⟩ := unset arg member
  have text := congrArg String.ofList (eq_of_shape_long form)
  rw [String.ofList_toList] at text
  cases value with
  | none =>
      rw [Option.elim_none, List.append_nil] at text
      exact alone text
  | some value => exact assigned value text

/-- The field whose option an argument is. -/
def Shape.field? : Shape → Option Field
  | .long name _ => Field.ofFlag? name
  | .endOfOptions | .short _ | .plain => none

theorem unset_iff {f : Field} {args : List String} :
    Unset f args ↔ ∀ arg ∈ args, (shape arg.toList).field? ≠ some f := by
  constructor
  · intro unset arg member named
    cases form : shape arg.toList with
    | long name value =>
        rw [form] at named
        cases Field.eq_flag_of_ofFlag? named
        exact unset.shape_ne member value form
    | _ =>
        rw [form] at named
        cases named
  · intro other arg member
    constructor
    · rintro rfl
      apply other f.option member
      rw [shape_option]
      exact f.ofFlag?_flag
    · rintro value rfl
      apply other (f.assign value) member
      rw [shape_assign]
      exact f.ofFlag?_flag

instance (f : Field) (args : List String) : Decidable (Unset f args) := decidable_of_iff' _ unset_iff

theorem shape_plain {value : List Char} (unsigned : value.head? ≠ some '-') : shape value = .plain := by
  unfold shape
  split
  · exact absurd rfl unsigned
  · exact absurd rfl unsigned
  · exact absurd rfl unsigned
  · rfl

theorem settingOfText?_cases {f : Field} {value : List Char} {s : Setting} (reads : settingOfText? f value = some s) :
    ∃ i, Setting.ofInt? f i = some s ∧ (Text.Decimal.toSigned? value = some i ∨
      ∃ n : Nat, Text.Decimal.toUnsigned? value = some n ∧ i = n) := by
  unfold settingOfText? at reads
  split at reads
  · obtain ⟨n, unsigned, made⟩ := Option.bind_eq_some_iff.mp reads
    exact ⟨n, made, .inr ⟨n, unsigned, rfl⟩⟩
  · obtain ⟨i, signed, made⟩ := Option.bind_eq_some_iff.mp reads
    exact ⟨i, made, .inl signed⟩

theorem field_of_settingOfText? {f : Field} {value : List Char} {s : Setting}
    (reads : settingOfText? f value = some s) : s.field = f := by
  obtain ⟨_, made, _⟩ := settingOfText?_cases reads
  exact (Setting.of_ofInt? made).1

/-- A number with a minus sign looks like letters after a dash, and not like a call for help. -/
theorem shape_signed {f : Field} {rest : List Char} {s : Setting} (reads : settingOfText? f ('-' :: rest) = some s) :
    ∃ letters, shape ('-' :: rest) = .short letters ∧ letters.head? ≠ some 'h' := by
  have digits : ∃ n, Text.Decimal.toNat? rest = some n := by
    obtain ⟨_, _, signed | ⟨n, unsigned, _⟩⟩ := settingOfText?_cases reads
    · cases number : Text.Decimal.toNat? rest with
      | some n => exact ⟨n, rfl⟩
      | none => simp [Text.Decimal.toSigned?, number] at signed
    · -- a minus sign is no digit
      have none : Text.Decimal.toUnsigned? ('-' :: rest) = none := by
        simp [Text.Decimal.toUnsigned?, Text.Decimal.toNat?, Text.Decimal.digit?]
      cases none.symm.trans unsigned
  obtain ⟨n, number⟩ := digits
  cases rest with
  | nil => cases number
  | cons c rest =>
      have digit : ∃ d, Text.Decimal.digit? c = some d := by
        rw [Text.Decimal.toNat?, if_neg (List.cons_ne_nil _ _)] at number
        obtain ⟨ds, all, _⟩ := Option.map_eq_some_iff.mp number
        rw [List.mapM_cons] at all
        obtain ⟨d, first, _⟩ := Option.bind_eq_some_iff.mp all
        exact ⟨d, first⟩
      obtain ⟨d, digit⟩ := digit
      have dash : c ≠ '-' := by
        rintro rfl
        cases digit
      have help : c ≠ 'h' := by
        rintro rfl
        cases digit
      refine ⟨c :: rest, ?_, ?_⟩
      · unfold shape
        split
        · rename_i same
          cases same
          exact absurd rfl dash
        · rename_i same
          cases same
          exact absurd rfl dash
        · rename_i same
          cases same
          rfl
        · rename_i short
          exact absurd rfl (short c rest)
      · intro head
        exact help (Option.some.inj head)

/-! What a step does to a scan. -/

/-- An argument is accepted: the options end, an option comes with its value or awaits it, or a
value has been awaited. -/
inductive Accepts (s : Scan) (arg : String) : Scan → Prop
  | endOfOptions (form : shape arg.toList = .endOfOptions) : Accepts s arg { s with optionsEnded := true }
  | assign {f : Field} {value : List Char} {s' t : Scan} (form : shape arg.toList = .long f.flag.toList (some value))
      (settled : settle s = .ok s') (taken : take s' f value = .ok t) : Accepts s arg t
  | option {f : Field} {s' : Scan} (form : shape arg.toList = .long f.flag.toList none) (settled : settle s = .ok s') :
      Accepts s arg { s' with pending := .awaiting f }
  | value {f : Field} (form : shape arg.toList = .plain) (awaits : s.pending = .awaiting f) :
      Accepts s arg { s with pending := .holding f arg.toList }

theorem step_long {s : Scan} (ongoing : s.optionsEnded = false) {arg : String} {f : Field} {value : Option (List Char)}
    (form : shape arg.toList = .long f.flag.toList value) : step s arg =
      (settle s).bind fun s => value.elim (.ok { s with pending := .awaiting f }) (take s f) := by
  rw [step, ongoing, form]
  show longOption s f.flag.toList value = _
  cases value with
  | none =>
      rw [longOption, if_neg f.flag_ne_help, Field.ofFlag?_flag]
      cases settle s <;> rfl
  | some value =>
      rw [longOption, if_neg f.flag_ne_help, Field.ofFlag?_flag]
      rfl

/-- A call for help never gives a scan, and neither does an option that is not known. -/
theorem longOption_eq_ok {s t : Scan} {name : List Char} {value : Option (List Char)}
    (accepted : longOption s name value = .ok t) : ∃ f, Field.ofFlag? name = some f := by
  cases known : Field.ofFlag? name with
  | some f => exact ⟨f, rfl⟩
  | none =>
      unfold longOption at accepted
      rw [known] at accepted
      split at accepted
      · split at accepted
        · cases accepted
        · cases settled : settle s <;> rw [settled] at accepted <;> cases accepted
      · cases accepted

theorem step_eq_ok_iff {s t : Scan} {arg : String} :
    step s arg = .ok t ↔ s.optionsEnded = false ∧ Accepts s arg t := by
  constructor
  · intro stepped
    cases ended : s.optionsEnded with
    | true =>
        rw [step, ended] at stepped
        cases stepped
    | false =>
        refine ⟨rfl, ?_⟩
        cases form : shape arg.toList with
        | endOfOptions =>
            rw [step, ended, form] at stepped
            cases stepped
            exact .endOfOptions form
        | long name value =>
            have long : longOption s name value = .ok t := by
              rw [step, ended, form] at stepped
              exact stepped
            obtain ⟨f, known⟩ := longOption_eq_ok long
            cases Field.eq_flag_of_ofFlag? known
            rw [step_long ended form] at stepped
            cases settled : settle s with
            | error e =>
                rw [settled] at stepped
                cases stepped
            | ok s' =>
                rw [settled] at stepped
                cases value with
                | none =>
                    cases stepped
                    exact .option form settled
                | some value => exact .assign form settled stepped
        | short letters =>
            rw [step, ended, form] at stepped
            simp only [Bool.false_eq_true, if_false] at stepped
            split at stepped
            · cases settled : settle s <;> rw [settled] at stepped <;> cases stepped
            · cases stepped
        | plain =>
            rw [step, ended, form] at stepped
            simp only [Bool.false_eq_true, if_false] at stepped
            split at stepped
            · rename_i f awaits
              cases stepped
              have accepted : Accepts s arg _ := .value form awaits
              rwa [ended] at accepted
            · cases stepped
  · rintro ⟨ended, accepts⟩
    cases accepts with
    | endOfOptions form =>
        rw [step, ended, form]
        rfl
    | assign form settled taken =>
        rw [step_long ended form, settled]
        exact taken
    | option form settled =>
        rw [step_long ended form, settled]
        rfl
    | value form awaits =>
        rw [step, ended, form]
        simp only [Bool.false_eq_true, if_false, awaits]

theorem foldlM_step_cons {s t : Scan} {arg : String} {args : List String} :
    (arg :: args).foldlM step s = .ok t ↔ ∃ s', step s arg = .ok s' ∧ args.foldlM step s' = .ok t := by
  rw [List.foldlM_cons]
  exact bind_eq_ok_iff

theorem take_eq_ok_iff {s t : Scan} {f : Field} {value : List Char} : take s f value = .ok t ↔
    (f = .directPeers ∧ ∃ peers, peers = s.options.directPeers.getD [] ++ (splitCommas value).map String.ofList ∧
      t = { s with options := s.options.set (.directPeers (some peers)) }) ∨
    (f ≠ .directPeers ∧ f ∉ s.given ∧ ∃ u, settingOfText? f value = some u ∧
      t = { s with options := s.options.set u, given := f :: s.given }) := by
  by_cases peers : f = .directPeers
  · subst peers
    rw [take, if_pos rfl]
    constructor
    · intro taken
      cases taken
      exact .inl ⟨rfl, _, rfl, rfl⟩
    · rintro (⟨_, _, rfl, rfl⟩ | ⟨number, _⟩)
      · rfl
      · exact absurd rfl number
  · rw [take, if_neg peers]
    by_cases again : f ∈ s.given
    · rw [if_pos again]
      simp [peers, again]
    · rw [if_neg again]
      cases settingOfText? f value with
      | none => simp [peers]
      | some u => simp [peers, again, eq_comm]

/-- Only the options and the given fields change, and of those only the one in question. -/
theorem take_keeps {s t : Scan} {f : Field} {value : List Char} (taken : take s f value = .ok t) :
    t.pending = s.pending ∧ t.optionsEnded = s.optionsEnded ∧ ∀ g, g ≠ f → g ∉ s.given → g ∉ t.given := by
  rcases take_eq_ok_iff.mp taken with ⟨_, _, _, rfl⟩ | ⟨_, _, u, _, rfl⟩
  · exact ⟨rfl, rfl, fun _ _ fresh => fresh⟩
  · refine ⟨rfl, rfl, ?_⟩
    intro g other fresh
    exact fun member => (List.mem_cons.mp member).elim other fresh

theorem settle_eq_ok {s t : Scan} (settled : settle s = .ok t) : s.pending = .none ∧ t = s ∨
    ∃ f value, s.pending = .holding f value ∧ take { s with pending := .none } f value = .ok t := by
  unfold settle at settled
  split at settled
  · rename_i idle
    cases settled
    exact .inl ⟨idle, rfl⟩
  · cases settled
  · rename_i f value holds
    exact .inr ⟨f, value, holds, settled⟩

/-- A scan that was settled has nothing pending, and it may go on just as before. -/
theorem settle_idle {s t : Scan} (settled : settle s = .ok t) :
    t.pending = .none ∧ t.optionsEnded = s.optionsEnded := by
  rcases settle_eq_ok settled with ⟨idle, rfl⟩ | ⟨f, value, _, taken⟩
  · exact ⟨idle, rfl⟩
  · obtain ⟨pending, ended, _⟩ := take_keeps taken
    exact ⟨pending, ended⟩

theorem settle_of_idle {s : Scan} (idle : s.pending = .none) : settle s = .ok s := by
  rw [settle, idle]

/-! Scans that differ by a value which one of them still holds. -/

/-- The rest of the arguments, and the last pending value. -/
def finish (s : Scan) (args : List String) : Except Stop Scan := (args.foldlM step s).bind settle

theorem finish_nil (s : Scan) : finish s [] = settle s := rfl

theorem finish_cons (s : Scan) (arg : String) (rest : List String) :
    finish s (arg :: rest) = (step s arg).bind fun t => finish t rest := by
  rw [finish, List.foldlM_cons]
  cases step s arg <;> rfl

theorem finish_append (s : Scan) (first rest : List String) :
    finish s (first ++ rest) = (first.foldlM step s).bind fun t => finish t rest := by
  rw [finish, List.foldlM_append]
  cases first.foldlM step s <;> rfl

theorem parse_eq_finish (args : List String) : parse args = (finish .start args).map Scan.options := by
  rw [parse, finish]
  cases args.foldlM step .start <;> rfl

theorem settle_ended {s t : Scan} (settled : settle s = .ok t) (ended : Bool) :
    settle { s with optionsEnded := ended } = .ok { t with optionsEnded := ended } := by
  rcases settle_eq_ok settled with ⟨idle, rfl⟩ | ⟨f, value, holds, taken⟩
  · exact settle_of_idle idle
  · rw [settle, holds]
    apply take_eq_ok_iff.mpr
    rcases take_eq_ok_iff.mp taken with ⟨peers, _, rfl, rfl⟩ | ⟨number, fresh, u, reads, rfl⟩
    · exact .inl ⟨peers, _, rfl, rfl⟩
    · exact .inr ⟨number, fresh, u, reads, rfl⟩

/-- Scans that settle alike take every argument alike, the end of the options aside, as long as
neither awaits a value. -/
theorem step_congr {s t : Scan} (settled : settle s = settle t) (ended : s.optionsEnded = t.optionsEnded)
    (calm : ∀ f, s.pending ≠ .awaiting f) (calm' : ∀ f, t.pending ≠ .awaiting f) {arg : String}
    (more : shape arg.toList ≠ .endOfOptions) : step s arg = step t arg := by
  unfold step
  rw [ended]
  split
  · rfl
  · split
    · rename_i last
      exact absurd last more
    · rename_i name value _
      unfold longOption
      rw [settled]
    · rw [settled]
    · split
      · rename_i f awaits
        exact absurd awaits (calm f)
      · rfl

/-- To settle a scan early changes nothing of what comes out. -/
theorem finish_settled {s t : Scan} (settled : settle s = .ok t) (args : List String) :
    finish s args = finish t args := by
  induction args generalizing s t with
  | nil =>
      rw [finish_nil, finish_nil, settled, settle_of_idle (settle_idle settled).1]
  | cons arg args ih =>
      obtain ⟨idle, ended⟩ := settle_idle settled
      rw [finish_cons, finish_cons]
      -- the end of the options is the one argument that leaves what is pending for later
      by_cases last : shape arg.toList = .endOfOptions
      · cases past : s.optionsEnded with
        | true =>
            rw [step, step, ended, past]
            rfl
        | false =>
            rw [step_eq_ok_iff.mpr ⟨past, .endOfOptions last⟩, step_eq_ok_iff.mpr ⟨ended.trans past, .endOfOptions last⟩]
            exact ih (settle_ended settled true)
      · have calm : ∀ f, s.pending ≠ .awaiting f := by
          intro f awaits
          rw [settle, awaits] at settled
          cases settled
        have calm' : ∀ f, t.pending ≠ .awaiting f := by
          intro f awaits
          rw [idle] at awaits
          cases awaits
        rw [step_congr (settled.trans (settle_of_idle idle).symm) ended.symm calm calm' last]

/-! A scan before and after a number that it is not given otherwise. -/

def Pending.field? : Pending → Option Field
  | .none => Option.none
  | .awaiting f | .holding f _ => some f

/-- Nothing of the field has been seen. -/
structure Scan.Free (f : Field) (s : Scan) : Prop where
  given : f ∉ s.given
  pending : s.pending.field? ≠ some f

theorem Scan.Free.settle {f : Field} {s t : Scan} (h : s.Free f) (settled : settle s = .ok t) : t.Free f := by
  refine ⟨?_, ?_⟩
  · rcases settle_eq_ok settled with ⟨_, rfl⟩ | ⟨g, value, holds, taken⟩
    · exact h.given
    · have other : f ≠ g := by
        rintro rfl
        exact h.pending (congrArg Pending.field? holds)
      exact (take_keeps taken).2.2 f other h.given
  · rw [(settle_idle settled).1]
    exact nofun

theorem Scan.Free.step {f : Field} {s t : Scan} (h : s.Free f) {arg : String}
    (other : ∀ value, shape arg.toList ≠ .long f.flag.toList value) (stepped : step s arg = .ok t) : t.Free f := by
  obtain ⟨_, accepts⟩ := step_eq_ok_iff.mp stepped
  have apart {g : Field} {value : Option (List Char)} (form : shape arg.toList = .long g.flag.toList value) : f ≠ g := by
    rintro rfl
    exact other value form
  cases accepts with
  | endOfOptions form => exact ⟨h.given, h.pending⟩
  | assign form settled taken =>
      have free := h.settle settled
      obtain ⟨pending, _, keeps⟩ := take_keeps taken
      exact ⟨keeps f (apart form) free.given, pending ▸ free.pending⟩
  | option form settled =>
      refine ⟨(h.settle settled).given, ?_⟩
      intro same
      exact apart form (Option.some.inj same).symm
  | value form awaits =>
      refine ⟨h.given, ?_⟩
      intro same
      exact h.pending (awaits ▸ same)

theorem Scan.Free.foldlM {f : Field} {s t : Scan} (h : s.Free f) {args : List String} (unset : Unset f args)
    (scanned : args.foldlM CommandLine.step s = .ok t) : t.Free f := by
  induction args generalizing s with
  | nil =>
      cases scanned
      exact h
  | cons arg args ih =>
      obtain ⟨s', stepped, later⟩ := foldlM_step_cons.mp scanned
      apply ih (h.step (unset.shape_ne List.mem_cons_self) stepped) _ later
      intro a member
      exact unset a (List.mem_cons_of_mem arg member)

theorem set_comm {u v : Setting} (apart : u.field ≠ v.field) (o : Options) : (o.set u).set v = (o.set v).set u := by
  apply ext_get
  intro f
  rw [get_set, get_set, get_set, get_set]
  by_cases here : f = v.field
  · rw [if_pos here, if_neg fun there => apart (there.symm.trans here), if_pos here]
  · rw [if_neg here, if_neg here]

theorem directPeers_set {u : Setting} (number : u.field ≠ .directPeers) (o : Options) :
    (o.set u).directPeers = o.directPeers := by
  cases u with
  | directPeers peers => contradiction
  | _ => rfl

/-- The second scan is like the first, but it was given this number too. -/
structure Ahead (u : Setting) (s s' : Scan) : Prop where
  options : s'.options = s.options.set u
  given : ∀ g, g ∈ s'.given ↔ g = u.field ∨ g ∈ s.given
  pending : s'.pending = s.pending
  ended : s'.optionsEnded = s.optionsEnded

section Ahead

variable {u : Setting} {s s' t : Scan} (number : u.field ≠ .directPeers)
include number

theorem Ahead.take (h : Ahead u s s') {g : Field} (other : g ≠ u.field) {value : List Char}
    (taken : take s g value = .ok t) : ∃ t', take s' g value = .ok t' ∧ Ahead u t t' := by
  rcases take_eq_ok_iff.mp taken with ⟨rfl, _, rfl, rfl⟩ | ⟨plain, fresh, v, reads, rfl⟩
  · refine ⟨_, take_eq_ok_iff.mpr (.inl ⟨rfl, _, rfl, rfl⟩), ?_, h.given, h.pending, h.ended⟩
    rw [h.options, directPeers_set number]
    exact set_comm (v := .directPeers (some _)) number s.options
  · have fresh' : g ∉ s'.given := fun member => ((h.given g).mp member).elim other fresh
    refine ⟨_, take_eq_ok_iff.mpr (.inr ⟨plain, fresh', v, reads, rfl⟩), ?_, ?_, h.pending, h.ended⟩
    · rw [h.options]
      exact set_comm (fun same => other ((field_of_settingOfText? reads).symm.trans same.symm)) s.options
    · intro k
      simp only [List.mem_cons, h.given]
      exact or_left_comm

theorem Ahead.settle (h : Ahead u s s') (free : s.pending.field? ≠ some u.field) (settled : settle s = .ok t) :
    ∃ t', settle s' = .ok t' ∧ Ahead u t t' := by
  rcases settle_eq_ok settled with ⟨idle, rfl⟩ | ⟨g, value, holds, taken⟩
  · exact ⟨s', settle_of_idle (h.pending.trans idle), h⟩
  · have other : g ≠ u.field := by
      rintro rfl
      exact free (congrArg Pending.field? holds)
    have idle : Ahead u { s with pending := .none } { s' with pending := .none } := ⟨h.options, h.given, rfl, h.ended⟩
    rw [CommandLine.settle, h.pending, holds]
    exact idle.take number other taken

theorem Ahead.step (h : Ahead u s s') (free : s.Free u.field) {arg : String}
    (unset : ∀ value, shape arg.toList ≠ .long u.field.flag.toList value) (stepped : step s arg = .ok t) :
    ∃ t', step s' arg = .ok t' ∧ Ahead u t t' := by
  obtain ⟨ongoing, accepts⟩ := step_eq_ok_iff.mp stepped
  have ongoing' := h.ended.trans ongoing
  cases accepts with
  | endOfOptions form =>
      exact ⟨_, step_eq_ok_iff.mpr ⟨ongoing', .endOfOptions form⟩, h.options, h.given, h.pending, rfl⟩
  | @assign g value next _ form settled taken =>
      have other : g ≠ u.field := by
        rintro rfl
        exact unset _ form
      obtain ⟨next', settled', ahead⟩ := h.settle number free.pending settled
      obtain ⟨t', taken', ahead'⟩ := ahead.take number other taken
      exact ⟨t', step_eq_ok_iff.mpr ⟨ongoing', .assign form settled' taken'⟩, ahead'⟩
  | option form settled =>
      obtain ⟨next', settled', ahead⟩ := h.settle number free.pending settled
      exact ⟨_, step_eq_ok_iff.mpr ⟨ongoing', .option form settled'⟩, ahead.options, ahead.given, rfl, ahead.ended⟩
  | value form awaits =>
      exact ⟨_, step_eq_ok_iff.mpr ⟨ongoing', .value form (h.pending.trans awaits)⟩, h.options, h.given, rfl, h.ended⟩

theorem Ahead.finish (h : Ahead u s s') (free : s.Free u.field) {args : List String} (unset : Unset u.field args)
    (finished : finish s args = .ok t) : ∃ t', finish s' args = .ok t' ∧ Ahead u t t' := by
  induction args generalizing s s' with
  | nil => exact h.settle number free.pending finished
  | cons arg args ih =>
      rw [finish_cons] at finished ⊢
      have other := unset.shape_ne List.mem_cons_self
      obtain ⟨next, stepped, later⟩ := bind_eq_ok_iff.mp finished
      obtain ⟨next', stepped', ahead⟩ := h.step number free other stepped
      rw [stepped']
      apply ih ahead (free.step other stepped) _ later
      intro a member
      exact unset a (List.mem_cons_of_mem arg member)

end Ahead

/-! The place of an option. -/

/-- After these arguments an option may come: they are accepted, and the options have not ended. -/
def Room (before : List String) : Prop := (∃ o, parse before = .ok o) ∧ "--" ∉ before

theorem step_ended {s t : Scan} {arg : String} (stepped : step s arg = .ok t) : t.optionsEnded = true ↔ arg = "--" := by
  obtain ⟨ongoing, accepts⟩ := step_eq_ok_iff.mp stepped
  have dashes : arg = "--" ↔ shape arg.toList = .endOfOptions := by
    rw [shape_endOfOptions_iff, ← String.toList_inj]
    rfl
  rw [dashes]
  cases accepts with
  | endOfOptions form => simp [form]
  | assign form settled taken =>
      rw [(take_keeps taken).2.1, (settle_idle settled).2, ongoing, form]
      simp
  | option form settled =>
      rw [form, (settle_idle settled).2, ongoing]
      simp
  | value form awaits =>
      rw [form, ongoing]
      simp

theorem foldlM_ended {s t : Scan} {args : List String} (scanned : args.foldlM step s = .ok t) :
    t.optionsEnded = true ↔ s.optionsEnded = true ∨ "--" ∈ args := by
  induction args generalizing s with
  | nil =>
      cases scanned
      simp
  | cons arg args ih =>
      obtain ⟨s', stepped, later⟩ := foldlM_step_cons.mp scanned
      obtain ⟨ongoing, _⟩ := step_eq_ok_iff.mp stepped
      rw [ih later, step_ended stepped, ongoing, List.mem_cons, eq_comm]
      simp

theorem parse_eq_ok_iff {args : List String} {o : Options} :
    parse args = .ok o ↔ ∃ s t, args.foldlM step .start = .ok s ∧ settle s = .ok t ∧ t.options = o := by
  simp only [parse, bind_eq_ok_iff, map_eq_ok_iff, exists_and_left]

theorem room_iff {before : List String} : Room before ↔
    ∃ s s', before.foldlM step .start = .ok s ∧ s.optionsEnded = false ∧ settle s = .ok s' := by
  constructor
  · rintro ⟨⟨o, parsed⟩, more⟩
    obtain ⟨s, s', scanned, settled, _⟩ := parse_eq_ok_iff.mp parsed
    refine ⟨s, s', scanned, Bool.eq_false_iff.mpr ?_, settled⟩
    intro past
    exact more (((foldlM_ended scanned).mp past).resolve_left Bool.false_ne_true)
  · rintro ⟨s, s', scanned, ongoing, settled⟩
    refine ⟨⟨_, parse_eq_ok_iff.mpr ⟨s, s', scanned, settled, rfl⟩⟩, ?_⟩
    intro dashes
    cases ongoing.symm.trans ((foldlM_ended scanned).mpr (.inr dashes))

theorem finish_ended {s : Scan} (past : s.optionsEnded = true) (arg : String) (rest : List String) :
    finish s (arg :: rest) = .error .unknownArgument := by
  rw [finish_cons, step, past]
  rfl

theorem finish_option {s : Scan} (ongoing : s.optionsEnded = false) (f : Field) (rest : List String) :
    finish s (f.option :: rest) = (settle s).bind fun s' => finish { s' with pending := .awaiting f } rest := by
  rw [finish_cons, step_long ongoing (shape_option f)]
  cases settle s <;> rfl

theorem finish_assign {s : Scan} (ongoing : s.optionsEnded = false) (f : Field) (value : List Char)
    (rest : List String) : finish s (f.assign value :: rest) =
      (settle s).bind fun s' => (take s' f value).bind fun t => finish t rest := by
  rw [finish_cons, step_long ongoing (shape_assign f value)]
  cases settle s <;> rfl

/-- Without room for an option, the first of the arguments is refused in either spelling. -/
theorem finish_of_no_room {s : Scan} (none : s.optionsEnded = true ∨ ∃ e, settle s = .error e) (f : Field)
    (value : List Char) (rest rest' : List String) : ∃ stop,
      finish s (f.option :: rest) = .error stop ∧ finish s (f.assign value :: rest') = .error stop := by
  cases past : s.optionsEnded with
  | true => exact ⟨_, finish_ended past _ _, finish_ended past _ _⟩
  | false =>
      obtain ended | ⟨e, refused⟩ := none
      · cases past.symm.trans ended
      · refine ⟨e, ?_, ?_⟩
        · rw [finish_option past, refused]
          rfl
        · rw [finish_assign past, refused]
          rfl

theorem step_awaited {s : Scan} (ongoing : s.optionsEnded = false) {f : Field} (awaits : s.pending = .awaiting f)
    {value : List Char} (unsigned : value.head? ≠ some '-') :
    step s (String.ofList value) = .ok { s with pending := .holding f value } := by
  have form : shape (String.ofList value).toList = .plain := by
    rw [String.toList_ofList]
    exact shape_plain unsigned
  have accepted := step_eq_ok_iff.mpr ⟨ongoing, .value form awaits⟩
  rwa [String.toList_ofList] at accepted

/-- The next argument, if it has no minus sign, is as good as what follows an equals sign. -/
theorem finish_unsigned {s : Scan} {f : Field} (number : f ≠ .directPeers) (free : s.Free f) {value : List Char}
    {u : Setting} (reads : settingOfText? f value = some u) (unsigned : value.head? ≠ some '-') (rest : List String) :
    finish s (f.option :: String.ofList value :: rest) = finish s (f.assign value :: rest) := by
  cases past : s.optionsEnded with
  | true => rw [finish_ended past, finish_ended past]
  | false =>
      rw [finish_option past, finish_assign past]
      cases settled : settle s with
      | error e => rfl
      | ok s' =>
          obtain ⟨idle, ended⟩ := settle_idle settled
          have fresh := (free.settle settled).given
          have taken := take_eq_ok_iff.mpr (.inr ⟨number, fresh, u, reads, rfl⟩)
          have later : settle { s' with pending := .holding f value } = take s' f value := by
            rw [settle, ← idle]
          have awaited : step { s' with pending := .awaiting f } (String.ofList value) =
              .ok { s' with pending := .holding f value } := by
            apply step_awaited _ rfl unsigned
            exact ended.trans past
          show finish { s' with pending := .awaiting f } (String.ofList value :: rest) =
            (take s' f value).bind fun t => finish t rest
          rw [finish_cons, awaited, taken]
          exact finish_settled (later.trans taken) rest

/-- A value with a minus sign is refused as the next argument, where its option is admitted. -/
theorem finish_signed {s s' : Scan} (ongoing : s.optionsEnded = false) (settled : settle s = .ok s') (f : Field)
    {value letters : List Char} (signed : shape value = .short letters) (plain : letters.head? ≠ some 'h')
    (rest : List String) : finish s (f.option :: String.ofList value :: rest) = .error .unknownArgument := by
  rw [finish_option ongoing, settled]
  show finish { s' with pending := .awaiting f } (String.ofList value :: rest) = _
  rw [finish_cons, step, String.toList_ofList, signed]
  simp [(settle_idle settled).2, ongoing, plain, Except.bind]

/-- The number is set, and nothing else is different from what comes out without it. -/
theorem finish_assigned {s s' t : Scan} (ongoing : s.optionsEnded = false) (settled : settle s = .ok s') {f : Field}
    (number : f ≠ .directPeers) (free : s.Free f) {value : List Char} {u : Setting}
    (reads : settingOfText? f value = some u) {rest : List String} (unset : Unset f rest)
    (finished : finish s rest = .ok t) :
    ∃ t', finish s (f.assign value :: rest) = .ok t' ∧ t'.options = t.options.set u := by
  have own := field_of_settingOfText? reads
  subst own
  have free' := free.settle settled
  have taken := take_eq_ok_iff.mpr (.inr ⟨number, free'.given, u, reads, rfl⟩)
  have ahead : Ahead u s' { s' with options := s'.options.set u, given := u.field :: s'.given } :=
    ⟨rfl, fun _ => List.mem_cons, rfl, rfl⟩
  rw [finish_settled settled] at finished
  obtain ⟨t', finished', ahead'⟩ := ahead.finish number free' unset finished
  refine ⟨t', ?_, ahead'.options⟩
  rw [finish_assign ongoing, settled]
  show (take s' u.field value).bind (fun t => finish t rest) = _
  rw [taken]
  exact finished'

theorem start_free (f : Field) : Scan.start.Free f := ⟨List.not_mem_nil, nofun⟩

theorem parse_append (before rest : List String) :
    parse (before ++ rest) = (before.foldlM step .start).bind fun s => (finish s rest).map Scan.options := by
  rw [parse_eq_finish, finish_append]
  cases before.foldlM step .start <;> rfl

theorem parse_append_error {before : List String} {stop : Stop} (scanned : before.foldlM step .start = .error stop)
    (rest : List String) : parse (before ++ rest) = .error stop := by
  rw [parse_append, scanned]
  rfl

theorem parse_append_ok {before : List String} {s : Scan} (scanned : before.foldlM step .start = .ok s)
    (rest : List String) : parse (before ++ rest) = (finish s rest).map Scan.options := by
  rw [parse_append, scanned]
  rfl

end CommandLine

/-! Both spellings of a setting. -/

theorem Setting.field_of_int? {s : Setting} {i : Int} (number : s.int? = some i) : s.field ≠ .directPeers := by
  cases s with
  | directPeers peers => cases number
  | _ => exact Field.noConfusion

/-- A setting's number has a minus sign if it is negative, and only then. -/
theorem Setting.text_sign {s : Setting} {i : Int} (number : s.int? = some i) :
    0 ≤ i ∧ s.text.head? ≠ some '-' ∨ i < 0 ∧ ∃ rest, s.text = '-' :: rest := by
  have natural (n : Nat) : (Text.Decimal.ofNat n).head? ≠ some '-' := by
    intro head
    exact Text.Decimal.minus_notMem_ofNat n (List.mem_of_head? head)
  cases s with
  | directPeers peers => cases number
  | decayIntervalSecs secs =>
      cases number
      exact .inl ⟨by omega, natural secs.toNat⟩
  | _ value =>
      cases number
      rcases Text.Decimal.ofInt_cases value.toInt with ⟨n, same, text⟩ | ⟨n, positive, same, text⟩
      · refine .inl ⟨by omega, ?_⟩
        rw [Setting.text, text]
        exact natural n
      · exact .inr ⟨by omega, _, text⟩

open CommandLine

section Spellings

variable {s : Setting} {before after : List String}

theorem parse_joined (field : s.field ≠ .directPeers) (unset : Unset s.field (before ++ after)) {o : Options}
    (accepted : parse (before ++ after) = .ok o) (room : Room before) :
    parse (before ++ s.argument :: after) = .ok (o.set s) := by
  obtain ⟨scan, scan', scanned, ongoing, settled⟩ := room_iff.mp room
  have free : scan.Free s.field := by
    apply (start_free s.field).foldlM _ scanned
    intro a member
    exact unset a (List.mem_append_left after member)
  have unset_after : Unset s.field after := fun a member => unset a (List.mem_append_right before member)
  rw [parse_append_ok scanned] at accepted
  obtain ⟨t, finished, rfl⟩ := map_eq_ok_iff.mp accepted
  obtain ⟨t', finished', options⟩ :=
    finish_assigned ongoing settled field free (settingOfText?_text field) unset_after finished
  rw [parse_append_ok scanned]
  exact map_eq_ok_iff.mpr ⟨t', finished', options⟩

theorem parse_apart_natural (field : s.field ≠ .directPeers) (unset : Unset s.field before)
    (unsigned : s.text.head? ≠ some '-') (after : List String) :
    parse (before ++ s.field.option :: String.ofList s.text :: after) = parse (before ++ s.argument :: after) := by
  cases scanned : before.foldlM step .start with
  | error e => rw [parse_append_error scanned, parse_append_error scanned]
  | ok scan =>
      have free := (start_free s.field).foldlM unset scanned
      have same := finish_unsigned field free (settingOfText?_text field) unsigned after
      rw [parse_append_ok scanned, parse_append_ok scanned]
      exact congrArg (Except.map Scan.options) same

theorem parse_apart_negative (field : s.field ≠ .directPeers) {rest : List Char} (text : s.text = '-' :: rest)
    (room : Room before) (after : List String) :
    parse (before ++ s.field.option :: String.ofList s.text :: after) = .error .unknownArgument := by
  obtain ⟨scan, scan', scanned, ongoing, settled⟩ := room_iff.mp room
  have reads := settingOfText?_text field
  rw [text] at reads
  obtain ⟨letters, signed, plain⟩ := shape_signed reads
  rw [text, parse_append_ok scanned, finish_signed ongoing settled s.field signed plain]
  rfl

/-- Without room for an option neither spelling is accepted, and for the same reason. -/
theorem parse_no_room (full : ¬ Room before) (f : Field) (value : List Char) (rest rest' : List String) : ∃ stop,
    parse (before ++ f.option :: rest) = .error stop ∧ parse (before ++ f.assign value :: rest') = .error stop := by
  cases scanned : before.foldlM step .start with
  | error e => exact ⟨e, parse_append_error scanned _, parse_append_error scanned _⟩
  | ok scan =>
      have none : scan.optionsEnded = true ∨ ∃ e, settle scan = .error e := by
        cases past : scan.optionsEnded with
        | true => exact .inl rfl
        | false =>
            cases settled : settle scan with
            | error e => exact .inr ⟨e, rfl⟩
            | ok scan' => exact absurd (room_iff.mpr ⟨scan, scan', scanned, past, settled⟩) full
      obtain ⟨stop, refused, refused'⟩ := finish_of_no_room none f value rest rest'
      refine ⟨stop, ?_, ?_⟩
      · rw [parse_append_ok scanned, refused]
        rfl
      · rw [parse_append_ok scanned, refused']
        rfl

end Spellings

/-- The two spellings of a number give the same, in whatever arguments, unless the number is negative.
A negative one is refused in an argument of its own, while after an equals sign it sets the field
wherever there is room for an option. -/
theorem spellings_of_number {s : Setting} {i : Int} (number : s.int? = some i) {before after : List String}
    (unset : Unset s.field (before ++ after)) :
    let apart := parse (before ++ s.field.option :: String.ofList s.text :: after)
    let joined := parse (before ++ s.argument :: after)
    (0 ≤ i → apart = joined) ∧
    ∀ o, parse (before ++ after) = .ok o →
      (Room before → joined = .ok (o.set s)) ∧
      (i < 0 → (∃ stop, apart = .error stop) ∧ (apart = joined ↔ ¬ Room before)) := by
  intro apart joined
  have field := Setting.field_of_int? number
  have sign := Setting.text_sign number
  constructor
  · intro natural
    obtain ⟨_, unsigned⟩ := sign.resolve_right fun negative => by omega
    have unset_before : Unset s.field before := fun a member => unset a (List.mem_append_left after member)
    exact parse_apart_natural field unset_before unsigned after
  · intro o accepted
    constructor
    · exact parse_joined field unset accepted
    · intro negative
      obtain ⟨_, rest, text⟩ := sign.resolve_left fun natural => by omega
      by_cases room : Room before
      · have refused : apart = .error .unknownArgument := parse_apart_negative field text room after
        have set : joined = .ok (o.set s) := parse_joined field unset accepted room
        refine ⟨⟨_, refused⟩, ?_⟩
        rw [refused, set]
        simp [room]
      · obtain ⟨stop, refused, refused'⟩ := parse_no_room room s.field s.text (String.ofList s.text :: after) after
        refine ⟨⟨stop, refused⟩, ?_⟩
        constructor
        · intro _
          exact room
        · intro _
          exact refused.trans refused'.symm

/-- Minus five as the next argument is refused; after an equals sign it is the value of the mesh peers. Seven
is taken either way. -/
theorem spellings_of_mesh_value :
    let minus_five : Setting := .meshPeerValue ⟨-5, by decide, by decide⟩
    let seven : Setting := .meshPeerValue 7
    let before := ["--pubsub.tag.delivery-cap", "3"]
    let after := ["--pubsub.direct-peers=a"]
    ∃ o, CommandLine.parse (before ++ after) = .ok o ∧ CommandLine.Unset .meshPeerValue (before ++ after) ∧
      CommandLine.Room before ∧
      CommandLine.parse (before ++ "--pubsub.tag.mesh-value" :: "7" :: after) =
        CommandLine.parse (before ++ "--pubsub.tag.mesh-value=7" :: after) ∧
      CommandLine.parse (before ++ "--pubsub.tag.mesh-value=7" :: after) = .ok (o.set seven) ∧
      (∃ stop, CommandLine.parse (before ++ "--pubsub.tag.mesh-value" :: "-5" :: after) = .error stop) ∧
      CommandLine.parse (before ++ "--pubsub.tag.mesh-value=-5" :: after) = .ok (o.set minus_five) := by
  intro minus_five seven before after
  have accepted : CommandLine.parse (before ++ after) =
      .ok { default with deliveryCap := 3, directPeers := some ["a"] } := rfl
  have unset : CommandLine.Unset .meshPeerValue (before ++ after) := by decide
  have room : CommandLine.Room before := ⟨⟨_, rfl⟩, by decide⟩
  have option : seven.field.option = "--pubsub.tag.mesh-value" := by decide
  have seven_apart : String.ofList seven.text = "7" := by decide
  have seven_joined : seven.argument = "--pubsub.tag.mesh-value=7" := by decide
  have five_apart : String.ofList minus_five.text = "-5" := by decide
  have five_joined : minus_five.argument = "--pubsub.tag.mesh-value=-5" := by decide
  have seven_int : seven.int? = some 7 := by decide
  have five_int : minus_five.int? = some (-5) := by decide
  have natural := spellings_of_number seven_int unset
  have negative := spellings_of_number five_int unset
  simp only [option, seven_apart, seven_joined] at natural
  rw [show minus_five.field = seven.field from rfl] at negative
  simp only [option, five_apart, five_joined] at negative
  obtain ⟨agree, seven_set⟩ := natural
  obtain ⟨set, apart⟩ := negative.2 _ accepted
  exact ⟨_, accepted, unset, room, agree (by decide), (seven_set _ accepted).1 room, (apart (by decide)).1, set room⟩

/-- The two spellings of minus five do not agree, although no other argument is there. -/
theorem minus_five_apart_is_refused :
    CommandLine.parse [] = .ok default ∧
      CommandLine.parse ["--pubsub.tag.mesh-value=-5"] =
        .ok (default.set (.meshPeerValue ⟨-5, by decide, by decide⟩)) ∧
      CommandLine.parse ["--pubsub.tag.mesh-value", "-5"] = .error .unknownArgument :=
  ⟨rfl, rfl, rfl⟩

end Options
end PeerTags
