/-
  Short type names. A full type name is a path of segments joined by `::`, which may be
  followed by arguments in angle brackets; its short name is the last segment. Main
  fact: a text without a separator is its own short name (`afterSeparator_of_none`).
-/

namespace RingTransport.TypeName

/-- The text after the last `::`, if there is one. -/
def afterSeparator : List Char → Option (List Char)
  | [] => none
  | c :: rest =>
    match afterSeparator rest with
    | some tail => some tail
    | none => if c = ':' ∧ rest.head? = some ':' then some rest.tail else none

/-- The short name of a full type name, as characters: the arguments are cut off first,
then everything up to the last separator. -/
def shortChars (full : List Char) : List Char :=
  let base := full.takeWhile (· ≠ '<')
  (afterSeparator base).getD base

/-- The short name of a full type name. -/
def short (full : String) : String := .ofList (shortChars full.toList)

theorem afterSeparator_of_none (s : List Char) (h : ':' ∉ s) : afterSeparator s = none := by
  induction s with
  | nil => rfl
  | cons c rest ih =>
    have hc : c ≠ ':' := fun e => h (e ▸ List.mem_cons_self)
    simp [afterSeparator, ih (fun hm => h (List.mem_cons_of_mem _ hm)), hc]

end RingTransport.TypeName
