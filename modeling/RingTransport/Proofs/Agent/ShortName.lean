/-
  Short names of all texts. The search for a separator finds nothing exactly when no two colons
  stand in a row (`afterSeparator_eq_none_iff`), and otherwise what stands after the last two that
  do (`afterSeparator_eq_some_iff`). So a short name is the end of what comes before the first `<`:
  all of it, or what follows its last separator (`shortChars_cases`). Main fact: the short name of
  a path is its last segment, with arguments after it or without, and the short name of any text
  is a part of it that cannot be made shorter again (`short_eq_last_segment`).
-/
import RingTransport.Agent.TypeName
import Mathlib.Data.List.TakeWhile

namespace RingTransport.TypeName

variable {s t base last suffix : List Char} {c : Char}

/-! ## The last separator -/

/-- Two colons stand in a row somewhere in the text. -/
def Separated (s : List Char) : Prop := [':', ':'] <:+: s

theorem separated_cons_iff :
    Separated (c :: s) ↔ (c = ':' ∧ s.head? = some ':') ∨ Separated s := by
  unfold Separated
  rw [List.infix_cons_iff, List.cons_prefix_cons, eq_comm]
  refine or_congr_left (and_congr_right fun _ => ?_)
  cases s with
  | nil => simp
  | cons d s => simp [List.cons_prefix_cons, eq_comm]

theorem afterSeparator_cons_of_some (h : afterSeparator s = some t) :
    afterSeparator (c :: s) = some t := by
  rw [afterSeparator, h]

theorem afterSeparator_cons_of_none (h : afterSeparator s = none) :
    afterSeparator (c :: s) = if c = ':' ∧ s.head? = some ':' then some s.tail else none := by
  rw [afterSeparator, h]

theorem afterSeparator_eq_none_iff : afterSeparator s = none ↔ ¬ Separated s := by
  induction s with
  | nil => simp [afterSeparator, Separated]
  | cons c s ih =>
    rw [separated_cons_iff]
    cases h : afterSeparator s with
    | none =>
      have hrest : ¬ Separated s := ih.1 h
      rw [afterSeparator_cons_of_none h]
      simp [hrest]
    | some t =>
      have hrest : Separated s := by
        by_contra hnone
        rw [ih.2 hnone] at h
        cases h
      rw [afterSeparator_cons_of_some h]
      simp [hrest]

/-- What the search finds stands after two colons, and these are the last: the text from the
second of them on has no others. -/
theorem afterSeparator_eq_some_iff :
    afterSeparator s = some t ↔
      (∃ path, s = path ++ ':' :: ':' :: t) ∧ ¬ Separated (':' :: t) := by
  induction s with
  | nil => simp [afterSeparator]
  | cons c s ih =>
    constructor
    · intro hfound
      cases h : afterSeparator s with
      | none =>
        rw [afterSeparator_cons_of_none h] at hfound
        obtain ⟨⟨rfl, hhead⟩, ht⟩ := Option.ite_none_right_eq_some.1 hfound
        obtain ⟨u, rfl⟩ := List.head?_eq_some_iff.1 hhead
        obtain rfl : u = t := Option.some.inj ht
        exact ⟨⟨[], rfl⟩, afterSeparator_eq_none_iff.1 h⟩
      | some u =>
        rw [afterSeparator_cons_of_some h] at hfound
        obtain ⟨⟨path, hpath⟩, hlast⟩ := ih.1 (h.trans hfound)
        exact ⟨⟨c :: path, congrArg (c :: ·) hpath⟩, hlast⟩
    · rintro ⟨⟨path, hpath⟩, hlast⟩
      cases path with
      | nil =>
        obtain ⟨rfl, rfl⟩ := List.cons.inj hpath
        rw [afterSeparator_cons_of_none (afterSeparator_eq_none_iff.2 hlast)]
        exact if_pos ⟨rfl, rfl⟩
      | cons d path =>
        obtain ⟨-, rfl⟩ := List.cons.inj hpath
        exact afterSeparator_cons_of_some (ih.2 ⟨⟨path, rfl⟩, hlast⟩)

-- of three colons in a row the last two are the separator
example : afterSeparator ['a', ':', ':', ':', 'b'] = some ['b'] := rfl

theorem not_separated_of_not_mem (h : ':' ∉ s) : ¬ Separated (':' :: s) := by
  rw [separated_cons_iff]
  rintro (⟨-, hhead⟩ | hrest)
  · exact h (List.mem_of_mem_head? hhead)
  · exact afterSeparator_eq_none_iff.1 (afterSeparator_of_none s h) hrest

/-! ## Short names as characters -/

theorem takeWhile_base (hbase : '<' ∉ base)
    (hsuffix : suffix = [] ∨ ∃ args, suffix = '<' :: args) :
    (base ++ suffix).takeWhile (· ≠ '<') = base := by
  have hkept : ∀ c ∈ base, decide (c ≠ '<') = true := fun c hc =>
    decide_eq_true fun heq => hbase (heq ▸ hc)
  rw [List.takeWhile_append_of_pos hkept]
  obtain rfl | ⟨args, rfl⟩ := hsuffix
  · exact List.append_nil base
  · rw [List.takeWhile_cons_of_neg (by decide), List.append_nil]

/-- A short name is all that comes before the first `<` if there is no separator in that, or else
what follows the last separator there. -/
theorem shortChars_cases (full : List Char) :
    (full.takeWhile (· ≠ '<') = shortChars full ∧ ¬ Separated (shortChars full)) ∨
      ∃ path, full.takeWhile (· ≠ '<') = path ++ ':' :: ':' :: shortChars full ∧
        ¬ Separated (':' :: shortChars full) := by
  unfold shortChars
  dsimp only
  cases h : afterSeparator (full.takeWhile (· ≠ '<')) with
  | none => exact .inl ⟨rfl, afterSeparator_eq_none_iff.1 h⟩
  | some t =>
    obtain ⟨⟨path, hpath⟩, hlast⟩ := afterSeparator_eq_some_iff.1 h
    exact .inr ⟨path, hpath, hlast⟩

theorem shortChars_suffix (full : List Char) :
    shortChars full <:+ full.takeWhile (· ≠ '<') := by
  obtain ⟨hall, -⟩ | ⟨path, hpath, -⟩ := shortChars_cases full
  · exact ⟨[], hall.symm⟩
  · exact ⟨path ++ [':', ':'], by rw [hpath, List.append_assoc]; rfl⟩

theorem shortChars_infix (full : List Char) : shortChars full <:+: full :=
  (shortChars_suffix full).isInfix.trans (List.takeWhile_prefix _).isInfix

theorem not_mem_shortChars (full : List Char) : '<' ∉ shortChars full := by
  intro h
  have hkept := List.mem_takeWhile_imp ((shortChars_suffix full).subset h)
  exact of_decide_eq_true hkept rfl

theorem not_separated_shortChars (full : List Char) : ¬ Separated (shortChars full) := by
  obtain ⟨-, hall⟩ | ⟨path, -, hlast⟩ := shortChars_cases full
  · exact hall
  · exact fun h => hlast (separated_cons_iff.2 (.inr h))

theorem shortChars_shortChars (full : List Char) :
    shortChars (shortChars full) = shortChars full := by
  have hbase := takeWhile_base (not_mem_shortChars full) (.inl rfl)
  rw [List.append_nil] at hbase
  obtain ⟨hall, -⟩ | ⟨path, hpath, -⟩ := shortChars_cases (shortChars full)
  · exact hall.symm.trans hbase
  · -- a separator in what is left would be one in a short name
    refine absurd ?_ (not_separated_shortChars full)
    rw [← hbase, hpath]
    exact ⟨path, _, List.append_assoc ..⟩

theorem shortChars_append (hbase : '<' ∉ base)
    (hsuffix : suffix = [] ∨ ∃ args, suffix = '<' :: args) (hlast : ':' ∉ last)
    (hend : base = last ∨ ∃ path, base = path ++ ':' :: ':' :: last) :
    shortChars (base ++ suffix) = last := by
  unfold shortChars
  rw [takeWhile_base hbase hsuffix]
  dsimp only
  obtain rfl | hpath := hend
  · rw [afterSeparator_of_none _ hlast]
    rfl
  · rw [afterSeparator_eq_some_iff.2 ⟨hpath, not_separated_of_not_mem hlast⟩]
    rfl

/-! ## Paths -/

theorem mem_path {segments : List String} (h : c ∈ ("::".intercalate segments).toList) :
    c = ':' ∨ ∃ s ∈ segments, c ∈ s.toList := by
  induction segments with
  | nil => simp at h
  | cons s segments ih =>
    cases segments with
    | nil => exact .inr ⟨s, List.mem_cons_self, by simpa using h⟩
    | cons s' segments =>
      rw [String.intercalate_cons_cons, String.toList_append, String.toList_append,
        List.mem_append, List.mem_append] at h
      obtain (hs | hsep) | hrest := h
      · exact .inr ⟨s, List.mem_cons_self, hs⟩
      · exact .inl (by simpa using hsep)
      · exact (ih hrest).imp_right fun ⟨u, hu, hc⟩ => ⟨u, List.mem_cons_of_mem _ hu, hc⟩

/-- A path is a single segment or has a separator before its last one. -/
theorem path_cases {segments : List String} (hne : segments ≠ []) :
    ("::".intercalate segments).toList = (segments.getLast hne).toList ∨
      ∃ path, ("::".intercalate segments).toList =
        path ++ ':' :: ':' :: (segments.getLast hne).toList := by
  have hsplit : "::".intercalate segments =
      "::".intercalate (segments.dropLast ++ [segments.getLast hne]) := by
    rw [List.dropLast_concat_getLast]
  by_cases hfirst : segments.dropLast = []
  · rw [hfirst, List.nil_append, String.intercalate_singleton] at hsplit
    exact .inl (congrArg String.toList hsplit)
  · rw [String.intercalate_append_of_ne_nil hfirst (List.cons_ne_nil _ _),
      String.intercalate_singleton] at hsplit
    refine .inr ⟨("::".intercalate segments.dropLast).toList, ?_⟩
    rw [hsplit, String.toList_append, String.toList_append, List.append_assoc]
    rfl

/-! ## Short names -/

/-- A contiguous part of a text. -/
def IsPart (part text : String) : Prop := ∃ before after, text = before ++ part ++ after

theorem isPart_iff {part text : String} : IsPart part text ↔ part.toList <:+: text.toList := by
  constructor
  · rintro ⟨before, after, rfl⟩
    rw [String.toList_append, String.toList_append]
    exact List.infix_append _ _ _
  · rintro ⟨before, after, htext⟩
    refine ⟨.ofList before, .ofList after, String.toList_inj.1 ?_⟩
    rw [String.toList_append, String.toList_append, String.toList_ofList, String.toList_ofList,
      htext]

theorem toList_short (text : String) : (short text).toList = shortChars text.toList :=
  String.toList_ofList

/-- Segments without a colon or `<` are joined by `::` to a path, and nothing follows it, or any
text that begins with `<`: the short name is the last segment. The short name of any text at all
contains neither `<` nor `::`, is a contiguous part of the text, and is its own short name. -/
theorem short_eq_last_segment :
    (∀ (segments : List String) (hne : segments ≠ []) (suffix : String),
      (∀ s ∈ segments, ':' ∉ s.toList ∧ '<' ∉ s.toList) →
      (suffix = "" ∨ ∃ args, suffix = "<" ++ args) →
        short ("::".intercalate segments ++ suffix) = segments.getLast hne) ∧
    ∀ text : String,
      ¬ IsPart "<" (short text) ∧ ¬ IsPart "::" (short text) ∧
      IsPart (short text) text ∧ short (short text) = short text := by
  constructor
  · intro segments hne suffix hplain hsuffix
    have hbase : '<' ∉ ("::".intercalate segments).toList := by
      intro h
      obtain hcolon | ⟨s, hs, hmem⟩ := mem_path h
      · exact absurd hcolon (by decide)
      · exact (hplain s hs).2 hmem
    have hargs : suffix.toList = [] ∨ ∃ args, suffix.toList = '<' :: args := by
      obtain rfl | ⟨args, rfl⟩ := hsuffix
      · exact .inl rfl
      · exact .inr ⟨args.toList, String.toList_append⟩
    refine String.toList_inj.1 ?_
    rw [toList_short, String.toList_append]
    exact shortChars_append hbase hargs (hplain _ (List.getLast_mem hne)).1 (path_cases hne)
  · intro text
    refine ⟨?_, ?_, ?_, ?_⟩
    · rw [isPart_iff, toList_short]
      exact fun h => not_mem_shortChars _ (h.subset (List.mem_singleton_self _))
    · rw [isPart_iff, toList_short]
      exact not_separated_shortChars _
    · rw [isPart_iff, toList_short]
      exact shortChars_infix _
    · refine String.toList_inj.1 ?_
      rw [toList_short, toList_short, shortChars_shortChars]

/-- Separators and brackets among the arguments of a generic type are not taken for its own. -/
theorem generic_type_short :
    let segments := ["crate", "feed", "MarketDataAgent"]
    let suffix := "<book::Quote<u64>, feed::Tick>"
    segments ≠ [] ∧ (∀ s ∈ segments, ':' ∉ s.toList ∧ '<' ∉ s.toList) ∧
      (suffix = "" ∨ ∃ args, suffix = "<" ++ args) ∧
      short "crate::feed::MarketDataAgent<book::Quote<u64>, feed::Tick>" = "MarketDataAgent" := by
  intro segments suffix
  have hne : segments ≠ [] := List.cons_ne_nil _ _
  have hplain : ∀ s ∈ segments, ':' ∉ s.toList ∧ '<' ∉ s.toList := by decide
  have hsuffix : suffix = "" ∨ ∃ args, suffix = "<" ++ args :=
    .inr ⟨"book::Quote<u64>, feed::Tick>", by decide⟩
  have hname := short_eq_last_segment.1 segments hne suffix hplain hsuffix
  exact ⟨hne, hplain, hsuffix, hname⟩

end RingTransport.TypeName
