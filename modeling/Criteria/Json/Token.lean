import Criteria.Json.Number

/-!
# JSON tokens

Splits a JSON text into brackets, separators, texts and scalars.  The list of tokens ends with a
`broken` one where the text stops being JSON.  Blanks are the space, the tab and the two line
end characters.
-/

namespace Criteria
namespace Json

/-- A token of a JSON text. -/
inductive Token where
  | openArray
  | closeArray
  | openObject
  | closeObject
  | comma
  | colon
  | text (s : String)
  /-- A value that is neither a text nor made of parts. -/
  | scalar (value : Json)
  /-- The place where tokens end before the text does; `quoted` if a text was begun there. -/
  | broken (fault : Fault) (quoted : Bool)

namespace Token

/-- The blanks of JSON. -/
def isSpace (c : Char) : Bool :=
  c = ' ' || c = '\t' || c = '\n' || c = '\r'

/-- The value of a hexadecimal digit. -/
def hexDigit? (c : Char) : Option Nat :=
  if c.isDigit then some (c.toNat - '0'.toNat)
  else if 'a' ≤ c ∧ c ≤ 'f' then some (c.toNat - 'a'.toNat + 10)
  else if 'A' ≤ c ∧ c ≤ 'F' then some (c.toNat - 'A'.toNat + 10)
  else none

/-- Reads four hexadecimal digits.  The text ends too soon when it holds less than four bytes of
whatever kind. -/
def hexCode (cs : List Char) : Except Fault (Nat × List Char) :=
  match cs.take 4, (cs.take 4).mapM hexDigit? with
  | [_, _, _, _], some digits => .ok (digits.foldl (fun n d => 16 * n + d) 0, cs.drop 4)
  | taken, _ => .error (if (String.ofList taken).utf8ByteSize < 4 then .endOfText else .malformed)

/-- Reads the second half of a pair of codes, with its backslash. -/
def lowHalf (high : Nat) : List Char → Except Fault (Char × List Char)
  | [] | ['\\'] => .error .endOfText
  | '\\' :: 'u' :: rest =>
      match hexCode rest with
      | .error e => .error e
      | .ok (low, tail) =>
          if 0xDC00 ≤ low ∧ low ≤ 0xDFFF then
            .ok (Char.ofNat ((high - 0xD800) * 0x400 + (low - 0xDC00) + 0x10000), tail)
          else .error .malformed
  | _ => .error .malformed

/-- Reads the code of a character.  Codes of halves count only in pairs. -/
def codeEscape (cs : List Char) : Except Fault (Char × List Char) :=
  match hexCode cs with
  | .error e => .error e
  | .ok (code, rest) =>
      if 0xDC00 ≤ code ∧ code ≤ 0xDFFF then .error .malformed
      else if 0xD800 ≤ code ∧ code ≤ 0xDBFF then lowHalf code rest
      else .ok (Char.ofNat code, rest)

/-- Reads what follows a backslash. -/
def escape : List Char → Except Fault (Char × List Char)
  | [] => .error .endOfText
  | 'u' :: rest => codeEscape rest
  | c :: rest =>
      match c with
      | '"' | '\\' | '/' => .ok (c, rest)
      | 'b' => .ok ('\x08', rest)
      | 'f' => .ok ('\x0c', rest)
      | 'n' => .ok ('\n', rest)
      | 'r' => .ok ('\r', rest)
      | 't' => .ok ('\t', rest)
      | _ => .error .malformed

theorem hexCode_length_le {cs rest : List Char} {n : Nat} (h : hexCode cs = .ok (n, rest)) :
    rest.length ≤ cs.length := by
  unfold hexCode at h
  split at h
  · cases h
    simp
  · cases h

theorem lowHalf_length_le {high : Nat} {cs rest : List Char} {c : Char}
    (h : lowHalf high cs = .ok (c, rest)) : rest.length ≤ cs.length := by
  unfold lowHalf at h
  split at h
  · cases h
  · cases h
  · split at h
    · cases h
    · next hc =>
      have := hexCode_length_le hc
      split at h
      · obtain ⟨_, rfl⟩ := Prod.mk.inj (Except.ok.inj h)
        simp only [List.length_cons]
        omega
      · cases h
  · cases h

theorem codeEscape_length_le {cs rest : List Char} {c : Char}
    (h : codeEscape cs = .ok (c, rest)) : rest.length ≤ cs.length := by
  unfold codeEscape at h
  split at h
  · cases h
  · next hc =>
    have := hexCode_length_le hc
    split at h
    · cases h
    · split at h
      · exact Nat.le_trans (lowHalf_length_le h) this
      · cases h
        exact this

theorem escape_length_le {cs rest : List Char} {c : Char} (h : escape cs = .ok (c, rest)) :
    rest.length ≤ cs.length := by
  unfold escape at h
  split at h
  · cases h
  · have := codeEscape_length_le h
    simp only [List.length_cons]
    omega
  · split at h <;> cases h <;> simp

/-- Reads a text up to its closing quote; `done` holds the characters read so far, the latest
first. -/
def quoted (done : List Char) (cs : List Char) : Except Fault (String × List Char) :=
  match cs with
  | [] => .error .endOfText
  | c :: rest =>
      if c = '"' then .ok (String.ofList done.reverse, rest)
      else if c = '\\' then
        match _h : escape rest with
        | .ok (character, tail) => quoted (character :: done) tail
        | .error e => .error e
      else if c.toNat < 0x20 then .error .malformed
      else quoted (c :: done) rest
termination_by cs.length
decreasing_by
  · exact Nat.lt_succ_of_le (escape_length_le _h)
  · exact Nat.lt_succ_self _

theorem quoted_length_lt {done cs rest : List Char} {s : String}
    (h : quoted done cs = .ok (s, rest)) : rest.length < cs.length := by
  fun_induction quoted done cs with
  | case1 => cases h
  | case2 => cases h; exact Nat.lt_succ_self _
  | case3 _ _ _ _ he _ ih =>
    have := escape_length_le he
    have := ih h
    simp only [List.length_cons]
    omega
  | case4 => cases h
  | case5 => cases h
  | case6 done c rest _ _ _ ih =>
    have := ih h
    simp only [List.length_cons]
    omega

/-- Reads the rest of a word whose first letter has been read. -/
def word : (expected cs : List Char) → Except Fault (List Char)
  | [], cs => .ok cs
  | _ :: _, [] => .error .endOfText
  | e :: expected, c :: cs => if c = e then word expected cs else .error .malformed

theorem word_length_le {expected cs rest : List Char} (h : word expected cs = .ok rest) :
    rest.length ≤ cs.length := by
  fun_induction word expected cs with
  | case1 => cases h; exact Nat.le_refl _
  | case2 => cases h
  | case3 expected cs c ih =>
    have := ih h
    simp only [List.length_cons]
    omega
  | case4 => cases h

/-- Reads the token that starts with the character `c`; also gives the text behind it.  A fault
comes with the knowledge whether it lies in a text. -/
def read (c : Char) (rest : List Char) : Except (Fault × Bool) (Token × List Char) :=
  let named (expected : List Char) (value : Json) : Except (Fault × Bool) (Token × List Char) :=
    match word expected rest with
    | .ok tail => .ok (.scalar value, tail)
    | .error e => .error (e, false)
  match c with
  | '[' => .ok (.openArray, rest)
  | ']' => .ok (.closeArray, rest)
  | '{' => .ok (.openObject, rest)
  | '}' => .ok (.closeObject, rest)
  | ',' => .ok (.comma, rest)
  | ':' => .ok (.colon, rest)
  | 'n' => named ['u', 'l', 'l'] .null
  | 't' => named ['r', 'u', 'e'] (.boolean true)
  | 'f' => named ['a', 'l', 's', 'e'] (.boolean false)
  | '"' =>
      match quoted [] rest with
      | .ok (s, tail) => .ok (.text s, tail)
      | .error e => .error (e, true)
  | _ =>
      if c = '-' ∨ c.isDigit then
        match Number.read (c :: rest) with
        | .ok (number, tail) => .ok (.scalar number, tail)
        | .error e => .error (e, false)
      else .error (.malformed, false)

theorem read_length_le {c : Char} {rest tail : List Char} {token : Token}
    (h : read c rest = .ok (token, tail)) : tail.length ≤ rest.length := by
  have named {expected : List Char} {value : Json}
      (h : (match word expected rest with
        | .ok tail => .ok (Token.scalar value, tail)
        | .error e => .error (e, false)) = (.ok (token, tail) : Except (Fault × Bool) _)) :
      tail.length ≤ rest.length := by
    split at h
    · next hw => cases h; exact word_length_le hw
    · cases h
  unfold read at h
  simp only at h
  split at h
  case h_1 | h_2 | h_3 | h_4 | h_5 | h_6 => cases h; exact Nat.le_refl _
  case h_7 | h_8 | h_9 => exact named h
  case h_10 =>
    split at h
    · next hq => cases h; exact Nat.le_of_lt (quoted_length_lt hq)
    · cases h
  case h_11 =>
    split at h
    · split at h
      · next hn => cases h; exact Nat.le_of_lt_succ (Number.read_length_lt hn)
      · cases h
    · cases h

/-- The tokens of a text. -/
def scan (cs : List Char) : List Token :=
  match cs with
  | [] => []
  | c :: rest =>
      if isSpace c then scan rest
      else
        match _h : read c rest with
        | .ok (token, tail) => token :: scan tail
        | .error (fault, quoted) => [.broken fault quoted]
termination_by cs.length
decreasing_by
  · exact Nat.lt_succ_self _
  · exact Nat.lt_succ_of_le (read_length_le _h)

end Token
end Json
end Criteria
