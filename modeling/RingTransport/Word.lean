/-
  Words of 64 bits. Limits, seconds and the numbers in options are kept as natural numbers
  below `Word.count`. What only goes up in steps of one, the counters of a ring and those of
  a handler, is a natural number without a bound: it is the word as long as fewer than
  `Word.count` steps were made.
-/

namespace RingTransport.Word

/-- How many words there are: 2^64. -/
def count : Nat := 18446744073709551616

/-- The largest word. -/
def largest : Nat := count - 1

end RingTransport.Word
