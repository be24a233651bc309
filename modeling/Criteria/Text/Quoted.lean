/-!
# Quoted text

A text between two equal quotes.  Inside it a backslash takes the character that
follows it, whatever that is, so a quote behind a backslash does not close the
text.  Reading the text back only shortens a backslash before its own quote; all
other backslashes stay, a doubled one included.

* `extent` measures a quoted text at the start of a list of characters.
* `decode` reads the content of such a text.
-/

namespace Criteria
namespace Text
namespace Quoted

/-- The number of characters up to the first quote that no backslash takes, that
quote included; none when the text is never closed. -/
def closing (quote : Char) : List Char → Option Nat
  | [] => none
  | '\\' :: _ :: rest => (closing quote rest).map (· + 2)
  | c :: rest => if c = quote then some 1 else (closing quote rest).map (· + 1)

/-- The length of the quoted text that `cs` starts with, both quotes included; zero
when `cs` starts with none. -/
def extent (quote : Char) : List Char → Nat
  | [] => 0
  | c :: rest =>
      if c = quote then
        match closing quote rest with
        | some n => n + 1
        | none => 0
      else 0

/-- Replaces each backslash before a quote, with that quote, by the quote alone,
reading from left to right. -/
def unescape (quote : Char) : List Char → List Char
  | [] => []
  | '\\' :: c :: rest =>
      if c = quote then quote :: unescape quote rest else '\\' :: unescape quote (c :: rest)
  | c :: rest => c :: unescape quote rest

/-- The content of a quoted text: its quotes are removed and the rest is unescaped. -/
def decode (quote : Char) (text : List Char) : List Char :=
  unescape quote (text.drop 1).dropLast

theorem closing_le {quote : Char} {cs : List Char} {n : Nat} (h : closing quote cs = some n) :
    n ≤ cs.length := by
  fun_induction closing quote cs generalizing n with
  | case1 => simp at h
  | case2 c rest ih =>
    obtain ⟨k, hk, rfl⟩ := Option.map_eq_some_iff.1 h
    simpa using ih hk
  | case3 => simp_all
  | case4 c rest _ _ ih =>
    obtain ⟨k, hk, rfl⟩ := Option.map_eq_some_iff.1 h
    simpa using ih hk

theorem extent_le (quote : Char) (cs : List Char) : extent quote cs ≤ cs.length := by
  fun_cases extent quote cs with
  | case1 => simp
  | case2 rest n h => simpa using closing_le h
  | case3 => simp
  | case4 => simp

end Quoted
end Text
end Criteria
