/-
  What the arguments of the benchmark command ask for. They are split from the left into items:
  an option that takes a value has the next argument in its item, whatever that looks like
  (`Splits`; `items` is the only such split). Reading them follows the items one by one
  (`ofArgs_eq_ofItems`), so all that counts is which options stand at the front of an item, and
  which values are numbers (`number?_eq_some_iff`). A reading by position, with reads that could
  miss, never misses and comes to the same end (`readFrom_eq`). Main fact:
  `options_by_flag_position`.
-/
import RingTransport.Bench.Options
import Mathlib.Data.Nat.Digits.Defs

namespace RingTransport.Bench

/-! ## Numbers -/

/-- A decimal digit. -/
def IsDigit (c : Char) : Prop := '0' ≤ c ∧ c ≤ '9'

/-- The number that decimal digits stand for, the first of them worth most. -/
def valueOf (digits : List Char) : Nat :=
  Nat.ofDigits 10 (digits.reverse.map fun c => c.toNat - '0'.toNat)

/-- The text stands for a 64-bit number: decimal digits, after a plus sign or not. -/
def Numeral (text : String) (n : Nat) : Prop :=
  ∃ digits : List Char, (text.toList = digits ∨ text.toList = '+' :: digits) ∧ digits ≠ [] ∧
    (∀ c ∈ digits, IsDigit c) ∧ valueOf digits = n ∧ n < Word.count

theorem valueOf_cons (c : Char) (cs : List Char) :
    valueOf (c :: cs) = (c.toNat - '0'.toNat) * 10 ^ cs.length + valueOf cs := by
  unfold valueOf
  rw [List.reverse_cons, List.map_append, Nat.ofDigits_append, List.length_map,
    List.length_reverse, List.map_singleton, Nat.ofDigits_singleton]
  ring

theorem digits?_eq_some_iff {n m : Nat} {cs : List Char} :
    digits? n cs = some m ↔ (∀ c ∈ cs, IsDigit c) ∧ n * 10 ^ cs.length + valueOf cs = m := by
  induction cs generalizing n with
  | nil => simp [digits?, valueOf]
  | cons c cs ih =>
    unfold digits? digit?
    rw [valueOf_cons]
    by_cases hc : '0' ≤ c ∧ c ≤ '9'
    · have hplace : (10 * n + (c.toNat - '0'.toNat)) * 10 ^ cs.length + valueOf cs =
          n * 10 ^ (cs.length + 1) + ((c.toNat - '0'.toNat) * 10 ^ cs.length + valueOf cs) := by
        ring
      rw [if_pos hc, Option.bind_some, ih, List.forall_mem_cons, List.length_cons, hplace]
      exact ⟨fun h => ⟨⟨hc, h.1⟩, h.2⟩, fun h => ⟨h.1.2, h.2⟩⟩
    · rw [if_neg hc, Option.bind_none]
      exact ⟨nofun, fun h => absurd (h.1 c (List.mem_cons_self ..)) hc⟩

/-- The digits of a text, when there are any and all are digits. -/
theorem filter_digits?_eq_some_iff {n : Nat} {cs : List Char} :
    (if cs.isEmpty then none else (digits? 0 cs).filter (· < Word.count)) = some n ↔
      cs ≠ [] ∧ (∀ c ∈ cs, IsDigit c) ∧ valueOf cs = n ∧ n < Word.count := by
  cases cs with
  | nil => simp
  | cons c cs =>
    rw [List.isEmpty_cons, if_neg Bool.false_ne_true, Option.filter_eq_some_iff,
      digits?_eq_some_iff, Nat.zero_mul, Nat.zero_add, decide_eq_true_iff]
    exact ⟨fun h => ⟨List.cons_ne_nil _ _, h.1.1, h.1.2, h.2⟩,
      fun h => ⟨⟨h.2.1, h.2.2.1⟩, h.2.2.2⟩⟩

theorem number?_eq_some_iff {text : String} {n : Nat} :
    number? text = some n ↔ Numeral text n := by
  unfold number? Numeral
  dsimp only
  split
  · next cs hcs =>
    rw [filter_digits?_eq_some_iff, hcs]
    refine ⟨fun h => ⟨cs, .inr rfl, h⟩, ?_⟩
    rintro ⟨digits, rfl | heq, h⟩
    · -- a plus sign is no digit
      exact absurd (h.2.1 '+' (List.mem_cons_self ..)).1 (by decide)
    · obtain ⟨-, rfl⟩ := List.cons.inj heq
      exact h
  · next hplus =>
    rw [filter_digits?_eq_some_iff]
    refine ⟨fun h => ⟨_, .inl rfl, h⟩, ?_⟩
    rintro ⟨digits, rfl | heq, h⟩
    · exact h
    · exact absurd heq (hplus digits)

/-! ## Options -/

/-- The names of an option. -/
def Flag.names : Flag → List String
  | .number .iterations => ["-n", "--iterations"]
  | .number .capacity => ["-c", "--capacity"]
  | .number .producers => ["-p", "--producers"]
  | .pin => ["--pin"]
  | .help => ["-h", "--help"]

theorem Flag.ofArg?_eq_some_iff {arg : String} {flag : Flag} :
    Flag.ofArg? arg = some flag ↔ arg ∈ flag.names := by
  constructor
  · intro h
    unfold Flag.ofArg? at h
    split_ifs at h with h₁ h₂ h₃ h₄ h₅
    all_goals
      obtain rfl := Option.some.inj h
      simp only [Flag.names, List.mem_cons, List.not_mem_nil, or_false]
      tauto
  · intro h
    cases flag with
    | number f =>
      cases f
      all_goals
        simp only [Flag.names, List.mem_cons, List.not_mem_nil, or_false] at h
        rcases h with rfl | rfl <;> rfl
    | pin =>
      simp only [Flag.names, List.mem_cons, List.not_mem_nil, or_false] at h
      rw [h]
      rfl
    | help =>
      simp only [Flag.names, List.mem_cons, List.not_mem_nil, or_false] at h
      rcases h with rfl | rfl <;> rfl

/-- The argument takes the next one as its value. -/
def TakesValue (arg : String) : Prop := ∃ f, arg ∈ (Flag.number f).names

instance (arg : String) : Decidable (TakesValue arg) :=
  decidable_of_iff (∃ f ∈ [.iterations, .capacity, .producers], arg ∈ (Flag.number f).names)
    ⟨fun ⟨f, _, hf⟩ => ⟨f, hf⟩, fun ⟨f, hf⟩ => ⟨f, by cases f <;> simp, hf⟩⟩

theorem takesValue_iff {arg : String} :
    TakesValue arg ↔ ∃ f, Flag.ofArg? arg = some (.number f) := by
  simp only [TakesValue, Flag.ofArg?_eq_some_iff]

/-- The number that is set for an option. -/
def Options.number (o : Options) : NumberField → Nat
  | .iterations => o.iterations
  | .capacity => o.capacity
  | .producers => o.producers

theorem Options.number_set (o : Options) (n : Nat) (f g : NumberField) :
    (o.set n f).number g = if f = g then n else o.number g := by
  cases f <;> cases g <;> rfl

theorem Options.pin_set (o : Options) (n : Nat) (f : NumberField) : (o.set n f).pin = o.pin := by
  cases f <;> rfl

theorem Options.eq_of_number_eq {o o' : Options} (hnumber : ∀ f, o.number f = o'.number f)
    (hpin : o.pin = o'.pin) : o = o' := by
  have hiterations := hnumber .iterations
  have hcapacity := hnumber .capacity
  have hproducers := hnumber .producers
  cases o
  cases o'
  simp only [Options.number] at hiterations hcapacity hproducers
  simp only [Options.mk.injEq]
  exact ⟨hiterations, hcapacity, hproducers, hpin⟩

/-! ## Items -/

/-- An argument at a flag position, with its value if it takes one and there is one. -/
structure Item where
  arg : String
  value : Option String
  deriving DecidableEq, Repr

/-- The arguments that an item is made of. -/
def Item.args (item : Item) : List String := item.arg :: item.value.toList

/-- The items make up the arguments, and an item has a value if it takes one, except that the
last may find none. -/
structure Splits (args : List String) (split : List Item) : Prop where
  whole : split.flatMap Item.args = args
  takes : ∀ item ∈ split, item.value.isSome → TakesValue item.arg
  greedy : ∀ item ∈ split.dropLast, TakesValue item.arg → item.value.isSome

/-- The items of the arguments, taken from the left. -/
def items : List String → List Item
  | [] => []
  | [arg] => [⟨arg, none⟩]
  | arg :: value :: args =>
    if TakesValue arg then ⟨arg, some value⟩ :: items args
    else ⟨arg, none⟩ :: items (value :: args)

variable {o : Options} {args xs ys : List String} {arg value : String} {split : List Item}
  {item : Item} {flag : Flag} {f : NumberField}

theorem items_of_takes (h : TakesValue arg) :
    items (arg :: value :: args) = ⟨arg, some value⟩ :: items args := by
  rw [items, if_pos h]

theorem items_of_not_takes (h : ¬ TakesValue arg) :
    items (arg :: args) = ⟨arg, none⟩ :: items args := by
  cases args with
  | nil => rfl
  | cons value args => rw [items, if_neg h]

theorem Splits.nil : Splits [] [] := ⟨rfl, nofun, nofun⟩

theorem Splits.cons (item : Item) (h : Splits args split)
    (htakes : item.value.isSome → TakesValue item.arg)
    (hgreedy : split ≠ [] → TakesValue item.arg → item.value.isSome) :
    Splits (item.args ++ args) (item :: split) where
  whole := by rw [List.flatMap_cons, h.whole]
  takes := List.forall_mem_cons.2 ⟨htakes, h.takes⟩
  greedy := by
    cases split with
    | nil => nofun
    | cons next split =>
      rw [List.dropLast_cons_cons, List.forall_mem_cons]
      exact ⟨hgreedy (List.cons_ne_nil _ _), h.greedy⟩

theorem splits_items (args : List String) : Splits args (items args) := by
  fun_induction items args with
  | case1 => exact .nil
  | case2 arg => exact Splits.nil.cons ⟨arg, none⟩ nofun fun hnil => absurd rfl hnil
  | case3 arg value args htakes ih =>
    exact ih.cons ⟨arg, some value⟩ (fun _ => htakes) fun _ _ => rfl
  | case4 arg value args htakes ih =>
    exact ih.cons ⟨arg, none⟩ nofun fun _ h => absurd h htakes

theorem Splits.tail (h : Splits args (item :: split)) : Splits (split.flatMap Item.args) split where
  whole := rfl
  takes := fun other hmem => h.takes other (List.mem_cons_of_mem _ hmem)
  greedy := by
    intro other hmem
    refine h.greedy other ?_
    cases split with
    | nil => cases hmem
    | cons next split =>
      rw [List.dropLast_cons_cons]
      exact List.mem_cons_of_mem _ hmem

/-- There is no other split. -/
theorem Splits.eq_items (h : Splits args split) : split = items args := by
  induction split generalizing args with
  | nil =>
    rw [← h.whole]
    rfl
  | cons item split ih =>
    have hrest := ih h.tail
    obtain ⟨arg, value⟩ := item
    rw [← h.whole, List.flatMap_cons]
    cases value with
    | some value =>
      have htakes : TakesValue arg := h.takes _ (List.mem_cons_self ..) rfl
      show _ = items (arg :: value :: split.flatMap Item.args)
      rw [items_of_takes htakes, ← hrest]
    | none =>
      show _ = items (arg :: split.flatMap Item.args)
      cases split with
      | nil => rfl
      | cons next split =>
        have htakes : ¬ TakesValue arg := fun htakes => by
          have hmem : (⟨arg, none⟩ : Item) ∈ (⟨arg, none⟩ :: next :: split).dropLast := by
            rw [List.dropLast_cons_cons]
            exact List.mem_cons_self ..
          cases h.greedy _ hmem htakes
        rw [items_of_not_takes htakes, ← hrest]

/-- The arguments end where an option could follow: the last item has found its value. -/
def EndsAtFlag (args : List String) : Prop :=
  ∀ item ∈ items args, TakesValue item.arg → item.value.isSome

instance (args : List String) : Decidable (EndsAtFlag args) :=
  inferInstanceAs (Decidable (∀ item ∈ items args, TakesValue item.arg → item.value.isSome))

theorem items_append (h : EndsAtFlag xs) : items (xs ++ ys) = items xs ++ items ys := by
  unfold EndsAtFlag at h
  fun_induction items xs with
  | case1 => rfl
  | case2 arg =>
    have htakes : ¬ TakesValue arg := fun htakes => by cases h _ (List.mem_cons_self ..) htakes
    exact items_of_not_takes htakes
  | case3 arg value xs htakes ih =>
    rw [List.forall_mem_cons] at h
    show items (arg :: value :: (xs ++ ys)) = _
    rw [items_of_takes htakes, ih h.2]
    rfl
  | case4 arg value xs htakes ih =>
    rw [List.forall_mem_cons] at h
    show items (arg :: (value :: xs ++ ys)) = _
    rw [items_of_not_takes htakes, ih h.2]
    rfl

/-! ## Following the items -/

/-- The option stands at a flag position. -/
def Asks (flag : Flag) (split : List Item) : Prop := ∃ item ∈ split, item.arg ∈ flag.names

/-- The number that an item gives for an option: its value, if it is a number. -/
def Item.given (f : NumberField) (item : Item) : Option Nat :=
  if item.arg ∈ (Flag.number f).names then item.value.bind number? else none

/-- The numbers given for an option. -/
def numbersFor (f : NumberField) (split : List Item) : List Nat := split.filterMap (Item.given f)

/-- What an item does to the options, unless it asks for help. -/
def Options.follow (o : Options) (item : Item) : Options :=
  match Flag.ofArg? item.arg, item.value with
  | some (.number f), some value => o.take f value
  | some .pin, _ => { o with pin := true }
  | _, _ => o

instance (flag : Flag) (split : List Item) : Decidable (Asks flag split) :=
  inferInstanceAs (Decidable (∃ item ∈ split, item.arg ∈ flag.names))

theorem not_asks_nil (flag : Flag) : ¬ Asks flag [] := nofun

theorem asks_cons : Asks flag (item :: split) ↔ item.arg ∈ flag.names ∨ Asks flag split := by
  simp [Asks]

theorem asks_append {split' : List Item} :
    Asks flag (split ++ split') ↔ Asks flag split ∨ Asks flag split' := by
  simp [Asks, or_and_right, exists_or]

theorem not_takesValue_of_help (h : arg ∈ Flag.help.names) : ¬ TakesValue arg := fun htakes => by
  obtain ⟨f, hf⟩ := takesValue_iff.1 htakes
  rw [Flag.ofArg?_eq_some_iff.2 h] at hf
  cases hf

/-- What the items ask for. -/
def Command.ofItems (o : Options) (split : List Item) : Command :=
  if Asks .help split then .help else .bench (split.foldl Options.follow o)

theorem ofItems_help (h : item.arg ∈ Flag.help.names) :
    Command.ofItems o (item :: split) = .help :=
  if_pos (asks_cons.2 (.inl h))

theorem ofItems_follow (h : item.arg ∉ Flag.help.names) :
    Command.ofItems o (item :: split) = Command.ofItems (o.follow item) split := by
  have hrest : Asks .help (item :: split) ↔ Asks .help split := by
    rw [asks_cons]
    exact or_iff_right h
  simp only [Command.ofItems, hrest, List.foldl_cons]

/-- An option that is the last argument finds no value, and changes nothing. -/
theorem follow_of_takes (h : TakesValue arg) : o.follow ⟨arg, none⟩ = o := by
  obtain ⟨f, hf⟩ := takesValue_iff.1 h
  rw [Options.follow, hf]

/-- Nor does an argument that is no option. -/
theorem follow_of_unknown (h : ∀ flag : Flag, arg ∉ flag.names) : o.follow ⟨arg, none⟩ = o := by
  have hnone : Flag.ofArg? arg = none := Option.eq_none_iff_forall_ne_some.2 fun flag hflag =>
    h flag (Flag.ofArg?_eq_some_iff.1 hflag)
  rw [Options.follow, hnone]

theorem ofArgs_help (h : arg ∈ Flag.help.names) : Command.ofArgs o (arg :: args) = .help := by
  rw [Command.ofArgs, Flag.ofArg?_eq_some_iff.2 h]

theorem ofArgs_plain (h : ¬ TakesValue arg) (hhelp : arg ∉ Flag.help.names) :
    Command.ofArgs o (arg :: args) = Command.ofArgs (o.follow ⟨arg, none⟩) args := by
  rw [takesValue_iff] at h
  rw [← Flag.ofArg?_eq_some_iff] at hhelp
  rw [Command.ofArgs, Options.follow]
  cases hflag : Flag.ofArg? arg with
  | none => rfl
  | some flag =>
    cases flag with
    | number f => exact absurd ⟨f, hflag⟩ h
    | help => exact absurd hflag hhelp
    | pin => rfl

theorem ofArgs_value (h : TakesValue arg) :
    Command.ofArgs o (arg :: value :: args) = Command.ofArgs (o.follow ⟨arg, some value⟩) args := by
  obtain ⟨f, hf⟩ := takesValue_iff.1 h
  rw [Command.ofArgs, Options.follow, hf]

theorem ofArgs_dangling (h : TakesValue arg) : Command.ofArgs o [arg] = .bench o := by
  obtain ⟨f, hf⟩ := takesValue_iff.1 h
  rw [Command.ofArgs, hf]

/-- Reading an argument that takes no value, if what follows is read as its items ask. -/
theorem ofArgs_cons (h : ¬ TakesValue arg)
    (hrest : ∀ o, Command.ofArgs o args = Command.ofItems o split) :
    Command.ofArgs o (arg :: args) = Command.ofItems o (⟨arg, none⟩ :: split) := by
  by_cases hhelp : arg ∈ Flag.help.names
  · rw [ofArgs_help hhelp, ofItems_help hhelp]
  · rw [ofArgs_plain h hhelp, ofItems_follow hhelp, hrest]

/-- Reading the arguments is following their items, unless one asks for help. -/
theorem ofArgs_eq_ofItems (o : Options) (args : List String) :
    Command.ofArgs o args = Command.ofItems o (items args) := by
  fun_induction items args generalizing o with
  | case1 => rfl
  | case2 arg =>
    by_cases htakes : TakesValue arg
    · have hhelp : arg ∉ Flag.help.names := fun h => not_takesValue_of_help h htakes
      rw [ofArgs_dangling htakes, ofItems_follow hhelp, follow_of_takes htakes]
      rfl
    · exact ofArgs_cons htakes fun _ => rfl
  | case3 arg value args htakes ih =>
    have hhelp : arg ∉ Flag.help.names := fun h => not_takesValue_of_help h htakes
    rw [ofArgs_value htakes, ofItems_follow hhelp, ih]
  | case4 arg value args htakes ih => exact ofArgs_cons htakes ih

theorem number_take (o : Options) (value : String) (f g : NumberField) :
    (o.take f value).number g = if f = g then (number? value).getD (o.number g) else o.number g := by
  unfold Options.take
  cases number? value with
  | none => simp
  | some n => exact o.number_set n f g

theorem number_follow (o : Options) (item : Item) (f : NumberField) :
    (o.follow item).number f = (item.given f).getD (o.number f) := by
  obtain ⟨arg, value⟩ := item
  simp only [Item.given, Options.follow, ← Flag.ofArg?_eq_some_iff]
  cases hflag : Flag.ofArg? arg with
  | none => rfl
  | some flag =>
    cases flag with
    | pin => cases f <;> rfl
    | help => rfl
    | number g =>
      cases value with
      | none => simp
      | some value =>
        show (o.take g value).number f = _
        rw [number_take]
        by_cases hg : g = f
        · simp [hg]
        · simp [hg]

theorem pin_follow (o : Options) (item : Item) :
    (o.follow item).pin = true ↔ o.pin = true ∨ item.arg ∈ Flag.pin.names := by
  obtain ⟨arg, value⟩ := item
  simp only [Options.follow, ← Flag.ofArg?_eq_some_iff]
  cases hflag : Flag.ofArg? arg with
  | none => simp
  | some flag =>
    cases flag with
    | pin => simp
    | help => simp
    | number g =>
      cases value with
      | none => simp
      | some value =>
        have hpin : (o.take g value).pin = o.pin := by
          unfold Options.take
          split
          · exact o.pin_set _ g
          · rfl
        simp [hpin]

/-- The last number given for an option counts. -/
theorem number_foldl (o : Options) (split : List Item) (f : NumberField) :
    (split.foldl Options.follow o).number f = (numbersFor f split).getLast?.getD (o.number f) := by
  induction split generalizing o with
  | nil => rfl
  | cons item split ih =>
    have hsplit : numbersFor f (item :: split) = (item.given f).toList ++ numbersFor f split := by
      cases hgiven : item.given f with
      | none => exact List.filterMap_cons_none hgiven
      | some n => exact List.filterMap_cons_some hgiven
    have hfirst : (item.given f).toList.getLast? = item.given f := by cases item.given f <;> rfl
    rw [List.foldl_cons, ih, number_follow, hsplit, List.getLast?_append, hfirst, Option.getD_or]

theorem pin_foldl (o : Options) (split : List Item) :
    (split.foldl Options.follow o).pin = true ↔ o.pin = true ∨ Asks .pin split := by
  induction split generalizing o with
  | nil => simp [not_asks_nil]
  | cons item split ih => rw [List.foldl_cons, ih, pin_follow, asks_cons, or_assoc]

/-- Items ask for the same if they give the same last numbers, and agree on the other options. -/
theorem ofItems_congr {split' : List Item} (hhelp : Asks .help split ↔ Asks .help split')
    (hpin : Asks .pin split ↔ Asks .pin split')
    (hnumbers : ∀ f, (numbersFor f split).getLast? = (numbersFor f split').getLast?) :
    Command.ofItems o split = Command.ofItems o split' := by
  have hoptions : split.foldl Options.follow o = split'.foldl Options.follow o := by
    refine Options.eq_of_number_eq (fun f => ?_) ?_
    · rw [number_foldl, number_foldl, hnumbers]
    · rw [Bool.eq_iff_iff, pin_foldl, pin_foldl, hpin]
  simp only [Command.ofItems, hhelp, hoptions]

/-! ## Reading by position -/

/-- Reads the arguments from a position on. Nothing comes out if it reads where there is no
argument, or if it takes too many turns. -/
def readFrom (args : List String) : (turns : Nat) → Options → (i : Nat) → Option Command
  | 0, _, _ => none
  | turns + 1, o, i =>
    if i < args.length then
      args[i]?.bind fun arg =>
        match Flag.ofArg? arg with
        | some (.number f) =>
          if i + 1 < args.length then
            args[i + 1]?.bind fun value => readFrom args turns (o.take f value) (i + 2)
          else readFrom args turns o (i + 1)
        | some .pin => readFrom args turns { o with pin := true } (i + 1)
        | some .help => some .help
        | none => readFrom args turns o (i + 1)
    else some (.bench o)

/-- It never does, and takes at most one turn more than there are arguments left. -/
theorem readFrom_eq {turns i : Nat} (h : args.length - i < turns) :
    readFrom args turns o i = some (Command.ofArgs o (args.drop i)) := by
  induction turns generalizing o i with
  | zero => omega
  | succ turns ih =>
    rw [readFrom]
    by_cases hi : i < args.length
    · have hnext : args.length - (i + 1) < turns := by omega
      rw [if_pos hi, List.getElem?_eq_getElem hi, Option.bind_some, List.drop_eq_getElem_cons hi,
        Command.ofArgs]
      cases hflag : Flag.ofArg? args[i] with
      | none => exact ih hnext
      | some flag =>
        cases flag with
        | pin => exact ih hnext
        | help => rfl
        | number f =>
          dsimp only
          by_cases hvalue : i + 1 < args.length
          · rw [if_pos hvalue, List.getElem?_eq_getElem hvalue, Option.bind_some,
              List.drop_eq_getElem_cons hvalue]
            exact ih (by omega)
          · have hend : args.drop (i + 1) = [] := List.drop_eq_nil_of_le (by omega)
            rw [if_neg hvalue, ih hnext, hend]
            rfl
    · have hend : args.drop i = [] := List.drop_eq_nil_of_le (by omega)
      rw [if_neg hi, hend]
      rfl

/-! ## All arguments -/

theorem ofArgs_append (hends : EndsAtFlag xs) (hhelp : ¬ Asks .help (items xs)) :
    Command.ofArgs o (xs ++ ys) = Command.ofArgs ((items xs).foldl Options.follow o) ys := by
  have hlater : Asks .help (items xs ++ items ys) ↔ Asks .help (items ys) := by
    rw [asks_append]
    exact or_iff_right hhelp
  rw [ofArgs_eq_ofItems, ofArgs_eq_ofItems, items_append hends]
  simp only [Command.ofItems, hlater, List.foldl_append]

/-- An item that is no cry for help and changes nothing might as well be missing. -/
theorem ofItems_idle {rest : List Item} (hhelp : item.arg ∉ Flag.help.names)
    (hidle : ∀ o : Options, o.follow item = o) :
    Command.ofItems o (split ++ item :: rest) = Command.ofItems o (split ++ rest) := by
  have hsame : Asks .help (split ++ item :: rest) ↔ Asks .help (split ++ rest) := by
    rw [asks_append, asks_append, asks_cons]
    exact or_congr_right (or_iff_right hhelp)
  simp only [Command.ofItems, hsame, List.foldl_append, List.foldl_cons, hidle]

theorem ofArgs_append_dangling (hends : EndsAtFlag xs) (h : TakesValue arg) :
    Command.ofArgs o (xs ++ [arg]) = Command.ofArgs o xs := by
  have hhelp : arg ∉ Flag.help.names := fun hmem => not_takesValue_of_help hmem h
  rw [ofArgs_eq_ofItems, ofArgs_eq_ofItems, items_append hends]
  show Command.ofItems o (items xs ++ ⟨arg, none⟩ :: []) = _
  rw [ofItems_idle hhelp fun _ => follow_of_takes h, List.append_nil]

theorem ofArgs_append_unknown (hends : EndsAtFlag xs) (h : ∀ flag : Flag, arg ∉ flag.names) :
    Command.ofArgs o (xs ++ arg :: ys) = Command.ofArgs o (xs ++ ys) := by
  have htakes : ¬ TakesValue arg := fun ⟨f, hf⟩ => h (.number f) hf
  rw [ofArgs_eq_ofItems, ofArgs_eq_ofItems, items_append hends, items_append hends,
    items_of_not_takes htakes]
  exact ofItems_idle (h .help) fun _ => follow_of_unknown h

theorem numbersFor_of_not_asks (h : ¬ Asks (.number f) split) : numbersFor f split = [] :=
  List.filterMap_eq_nil_iff.2 fun item hmem => if_neg fun harg => h ⟨item, hmem, harg⟩

/-- Arguments that set different numbers can be read in either order. -/
theorem ofArgs_comm {zs : List String} (hargs : EndsAtFlag args) (hxs : EndsAtFlag xs)
    (hzs : EndsAtFlag zs) (h : ∀ f, ¬ (Asks (.number f) (items xs) ∧ Asks (.number f) (items zs))) :
    Command.ofArgs o (args ++ (xs ++ (zs ++ ys))) =
      Command.ofArgs o (args ++ (zs ++ (xs ++ ys))) := by
  have hasks (flag : Flag) : Asks flag (items args ++ (items xs ++ (items zs ++ items ys))) ↔
      Asks flag (items args ++ (items zs ++ (items xs ++ items ys))) := by
    simp only [asks_append]
    tauto
  rw [ofArgs_eq_ofItems, ofArgs_eq_ofItems, items_append hargs, items_append hargs,
    items_append hxs, items_append hzs, items_append hzs, items_append hxs]
  refine ofItems_congr (hasks .help) (hasks .pin) fun f => ?_
  simp only [numbersFor, List.filterMap_append]
  rcases Classical.not_and_iff_not_or_not.1 (h f) with hnone | hnone
  · rw [show (items xs).filterMap (Item.given f) = [] from numbersFor_of_not_asks hnone]
    rfl
  · rw [show (items zs).filterMap (Item.given f) = [] from numbersFor_of_not_asks hnone]
    rfl

/-- For all options that hold at first and all arguments. The arguments have one split into items,
and reading them by position never reads where there is no argument, and comes to an end. Help is
asked for just when one of its names is at a flag position. Otherwise the number of each option is
the last value of its own that is a numeral below 2^64, or the number it had if there is none, and
the thread is pinned just when that is asked for at a flag position or was so before; and if the
last option has its value, whatever follows is read as from these options on. There, an option in
want of its value changes nothing, nor does an argument that is no option, and arguments that set
different numbers may change places. -/
theorem options_by_flag_position (o : Options) (args : List String) :
    (∀ split, Splits args split ↔ split = items args) ∧
    (∀ turns, args.length < turns →
      readFrom args turns o 0 = some (Command.ofArgs o args)) ∧
    (Command.ofArgs o args = .help ↔ Asks .help (items args)) ∧
    (¬ Asks .help (items args) → ∃ o', Command.ofArgs o args = .bench o' ∧
      (∀ f, o'.number f = (numbersFor f (items args)).getLast?.getD (o.number f)) ∧
      (o'.pin = true ↔ o.pin = true ∨ Asks .pin (items args)) ∧
      (EndsAtFlag args → ∀ ys, Command.ofArgs o (args ++ ys) = Command.ofArgs o' ys)) ∧
    (∀ text n, number? text = some n ↔ Numeral text n) ∧
    (EndsAtFlag args →
      (∀ arg, TakesValue arg → Command.ofArgs o (args ++ [arg]) = Command.ofArgs o args) ∧
      (∀ arg ys, (∀ flag : Flag, arg ∉ flag.names) →
        Command.ofArgs o (args ++ arg :: ys) = Command.ofArgs o (args ++ ys)) ∧
      ∀ xs zs ys, EndsAtFlag xs → EndsAtFlag zs →
        (∀ f, ¬ (Asks (.number f) (items xs) ∧ Asks (.number f) (items zs))) →
        Command.ofArgs o (args ++ (xs ++ (zs ++ ys))) =
          Command.ofArgs o (args ++ (zs ++ (xs ++ ys)))) := by
  refine ⟨fun split => ⟨Splits.eq_items, fun h => h ▸ splits_items args⟩, fun turns hturns => ?_,
    ?_, fun hhelp => ?_, fun text n => number?_eq_some_iff, fun hends => ⟨?_, ?_, ?_⟩⟩
  · have hread : readFrom args turns o 0 = some (Command.ofArgs o (args.drop 0)) :=
      readFrom_eq (by omega)
    rwa [List.drop_zero] at hread
  · rw [ofArgs_eq_ofItems, Command.ofItems]
    split
    · next hhelp => exact iff_of_true rfl hhelp
    · next hhelp => exact iff_of_false nofun hhelp
  · have hread : Command.ofArgs o args = .bench ((items args).foldl Options.follow o) := by
      rw [ofArgs_eq_ofItems, Command.ofItems, if_neg hhelp]
    exact ⟨_, hread, number_foldl o _, pin_foldl o _, fun hends _ => ofArgs_append hends hhelp⟩
  · exact fun arg htakes => ofArgs_append_dangling hends htakes
  · exact fun arg ys hunknown => ofArgs_append_unknown hends hunknown
  · exact fun xs zs ys hxs hzs h => ofArgs_comm hends hxs hzs h

/-- A number is missing where the name of help stands, which is then no call for help; what comes
after it is read as ever. -/
theorem options_past_swallowed_help :
    let args := ["--pin", "-c", "+08", "-n", "--help"]
    EndsAtFlag args ∧ ¬ Asks .help (items args) ∧
      (∃ o', Command.ofArgs .standard args = .bench o' ∧ o'.number .capacity = 8 ∧
        o'.number .iterations = Options.standard.iterations ∧ o'.pin = true ∧
        Command.ofArgs .standard (args ++ ["-c", "2x"]) = Command.ofArgs o' ["-c", "2x"]) ∧
      Command.ofArgs .standard (args ++ ["-p"]) = Command.ofArgs .standard args ∧
      Command.ofArgs .standard (args ++ "--Pin" :: ["-h"]) =
        Command.ofArgs .standard (args ++ ["-h"]) ∧
      Command.ofArgs .standard (args ++ (["-n", "7"] ++ (["--capacity", "1"] ++ ["-n"]))) =
        Command.ofArgs .standard (args ++ (["--capacity", "1"] ++ (["-n", "7"] ++ ["-n"]))) := by
  intro args
  have hends : EndsAtFlag args := by decide
  have hhelp : ¬ Asks .help (items args) := by decide
  have hpin : Asks .pin (items args) := by decide
  have hcapacity : numbersFor .capacity (items args) = [8] := by decide +kernel
  have hiterations : numbersFor .iterations (items args) = [] := by decide +kernel
  obtain ⟨-, -, -, hbench, -, hends'⟩ := options_by_flag_position .standard args
  obtain ⟨o', hread, hnumbers, hpinned, hlater⟩ := hbench hhelp
  obtain ⟨hdangling, hunknown, hcomm⟩ := hends' hends
  refine ⟨hends, hhelp, ⟨o', hread, ?_, ?_, hpinned.2 (.inr hpin), hlater hends _⟩,
    hdangling "-p" (by decide), hunknown "--Pin" ["-h"] ?_, hcomm _ _ _ ?_ ?_ ?_⟩
  · rw [hnumbers, hcapacity]
    rfl
  · rw [hnumbers, hiterations]
    rfl
  · intro flag
    cases flag with
    | number f => cases f <;> decide
    | pin | help => decide
  · decide
  · decide
  · intro f
    cases f <;> decide

end RingTransport.Bench
