/-
The scanner of isl (`isl_stream.c`).  A character of the input is a byte.
Quoted strings, comments, line continuations and the operators `& | / \ !` are
left out: no text of the pass holds their characters.
-/
import Mathlib.Data.List.TakeWhile
import PolyhedralPass.Isl.Set

namespace PolyhedralPass.Isl

inductive Keyword
  | existsQuant | and | or | implies | not | infty | nan | min | max | rat
  | true | false | ceild | floord | mod | ceil | floor
deriving DecidableEq

/-- The tokens.  `aff` and `map` carry an expression or a condition that the
reader has already parsed and pushed back. -/
inductive Token
  | char (c : Char)
  | to | eqEq | define
  | ge | lexGe | lexGt | gt | le | lexLe | lexLt | lt
  | value (v : Int)
  | ident (name : String)
  | keyword (kw : Keyword) (name : String)
  | aff (expr : Aff)
  | map (cond : Formula)
  | unknown
deriving DecidableEq

/-- The words `check_keywords` compares with, in lower case. -/
def keywordTable : List (String × Keyword) :=
  [("exists", .existsQuant), ("and", .and), ("or", .or), ("implies", .implies),
   ("not", .not), ("infty", .infty), ("infinity", .infty), ("nan", .nan),
   ("min", .min), ("max", .max), ("rat", .rat), ("true", .true),
   ("false", .false), ("ceild", .ceild), ("floord", .floord), ("mod", .mod),
   ("ceil", .ceil), ("floor", .floor)]

/-- The comparison is `strcasecmp`. -/
def checkKeywords (word : String) : Option Keyword :=
  keywordTable.lookup (String.ofList (word.toList.map Char.toLower))

/-- No keyword ends like the suffix. -/
theorem checkKeywords_append {suffix : String} {c : Char}
    (hlast : (suffix.toList.map Char.toLower).getLast? = some c)
    (hkeys : ∀ entry ∈ keywordTable, entry.1.toList.getLast? ≠ some c) (word : String) :
    checkKeywords (word ++ suffix) = none := by
  have hne : suffix.toList.map Char.toLower ≠ [] := by
    intro hnil
    rw [hnil] at hlast
    exact absurd hlast (by simp)
  unfold checkKeywords
  rw [List.lookup_eq_none_iff]
  intro entry hentry
  rw [bne_iff_ne]
  intro heq
  apply hkeys entry hentry
  rw [← heq, String.toList_ofList, String.toList_append, List.map_append,
    List.getLast?_append_of_ne_nil _ hne, hlast]

theorem checkKeywords_primed (word : String) : checkKeywords (word ++ "_p") = none :=
  checkKeywords_append (c := 'p') (by decide) (by decide) word

def wordToken (word : String) : Token :=
  match checkKeywords word with
  | some kw => .keyword kw word
  | none => .ident word

def isWordStart (c : Char) : Bool := c.isAlpha || c == '_'

def isWordChar (c : Char) : Bool := c.isAlphanum || c == '_'

/-- The characters that are a token by themselves. -/
def singleCharTokens : List Char :=
  ['(', ')', '+', '*', '%', '?', '^', '@', '$', ',', '.', ';', '[', ']', '{', '}']

/-- The token that starts with `-`, given what follows. -/
def minusToken : List Char → Token × List Char
  | '>' :: rest => (.to, rest)
  | cs => (.char '-', cs)

/-- The token that starts with `=`. -/
def equalToken : List Char → Token × List Char
  | '=' :: rest => (.eqEq, rest)
  | cs => (.char '=', cs)

/-- The token that starts with `:`. -/
def colonToken : List Char → Token × List Char
  | '=' :: rest => (.define, rest)
  | cs => (.char ':', cs)

/-- The token that starts with `>`. -/
def greaterToken : List Char → Token × List Char
  | '=' :: rest => (.ge, rest)
  | '>' :: '=' :: rest => (.lexGe, rest)
  | '>' :: rest => (.lexGt, rest)
  | cs => (.gt, cs)

/-- The token that starts with `<`. -/
def lessToken : List Char → Token × List Char
  | '=' :: rest => (.le, rest)
  | '<' :: '=' :: rest => (.lexLe, rest)
  | '<' :: rest => (.lexLt, rest)
  | cs => (.lt, cs)

/-- The number that starts with the digit `c`. -/
def numberToken (c : Char) (cs : List Char) : Token × List Char :=
  (.value (Nat.ofDigitChars 10 (c :: cs.takeWhile Char.isDigit) 0), cs.dropWhile Char.isDigit)

/-- The word that starts with `c`; primes may follow it. -/
def identToken (c : Char) (cs : List Char) : Token × List Char :=
  let rest := cs.dropWhile isWordChar
  (wordToken (String.ofList (c :: cs.takeWhile isWordChar ++ rest.takeWhile (· == '\''))),
    rest.dropWhile (· == '\''))

/-- The next token and the rest of the input, or `none` at its end. -/
def nextToken : List Char → Option (Token × List Char)
  | [] => none
  | c :: cs =>
      if c.isWhitespace then nextToken cs
      else if c ∈ singleCharTokens then some (.char c, cs)
      else if c = '-' then some (minusToken cs)
      else if c.isDigit then some (numberToken c cs)
      else if isWordStart c then some (identToken c cs)
      else if c = '=' then some (equalToken cs)
      else if c = ':' then some (colonToken cs)
      else if c = '>' then some (greaterToken cs)
      else if c = '<' then some (lessToken cs)
      else some (.unknown, cs)

def scan : Nat → List Char → List Token
  | 0, _ => []
  | fuel + 1, input =>
      match nextToken input with
      | none => []
      | some (tok, rest) => tok :: scan fuel rest

/-- The token stream of an input.  Every token takes a character, so as many
steps as there are characters reach its end. -/
def tokens (input : List Char) : List Token := scan input.length input

theorem operatorToken_length (cs : List Char) :
    (minusToken cs).2.length ≤ cs.length ∧ (equalToken cs).2.length ≤ cs.length ∧
      (colonToken cs).2.length ≤ cs.length ∧ (greaterToken cs).2.length ≤ cs.length ∧
      (lessToken cs).2.length ≤ cs.length := by
  refine ⟨?_, ?_, ?_, ?_, ?_⟩
  · fun_cases minusToken cs <;> simp
  · fun_cases equalToken cs <;> simp
  · fun_cases colonToken cs <;> simp
  · fun_cases greaterToken cs <;> simp only [List.length_cons] <;> omega
  · fun_cases lessToken cs <;> simp only [List.length_cons] <;> omega

theorem identToken_length (c : Char) (cs : List Char) :
    (identToken c cs).2.length ≤ cs.length :=
  ((List.dropWhile_suffix _).length_le).trans (List.dropWhile_suffix _).length_le

theorem nextToken_length {input rest : List Char} {tok : Token}
    (h : nextToken input = some (tok, rest)) : rest.length < input.length := by
  induction input with
  | nil => simp [nextToken] at h
  | cons c cs ih =>
      obtain ⟨hminus, hequal, hcolon, hgreater, hless⟩ := operatorToken_length cs
      have hnumber : (numberToken c cs).2.length ≤ cs.length :=
        (List.dropWhile_suffix _).length_le
      -- what a token leaves is at most what stands behind its first character
      have htoken : ∀ result : Token × List Char, result.2.length ≤ cs.length →
          some result = some (tok, rest) → rest.length < (c :: cs).length := by
        rintro result hle heq
        obtain rfl := Option.some.inj heq
        exact Nat.lt_succ_of_le hle
      rw [nextToken] at h
      rcases ite_eq_iff.mp h with ⟨_, h⟩ | ⟨_, h⟩
      · exact Nat.lt_succ_of_lt (ih h)
      rcases ite_eq_iff.mp h with ⟨_, h⟩ | ⟨_, h⟩
      · exact htoken _ le_rfl h
      rcases ite_eq_iff.mp h with ⟨_, h⟩ | ⟨_, h⟩
      · exact htoken _ hminus h
      rcases ite_eq_iff.mp h with ⟨_, h⟩ | ⟨_, h⟩
      · exact htoken _ hnumber h
      rcases ite_eq_iff.mp h with ⟨_, h⟩ | ⟨_, h⟩
      · exact htoken _ (identToken_length c cs) h
      rcases ite_eq_iff.mp h with ⟨_, h⟩ | ⟨_, h⟩
      · exact htoken _ hequal h
      rcases ite_eq_iff.mp h with ⟨_, h⟩ | ⟨_, h⟩
      · exact htoken _ hcolon h
      rcases ite_eq_iff.mp h with ⟨_, h⟩ | ⟨_, h⟩
      · exact htoken _ hgreater h
      rcases ite_eq_iff.mp h with ⟨_, h⟩ | ⟨_, h⟩
      · exact htoken _ hless h
      · exact htoken _ le_rfl h

theorem scan_of_length_le {input : List Char} {first second : Nat}
    (hfirst : input.length ≤ first) (hsecond : input.length ≤ second) :
    scan first input = scan second input := by
  induction first generalizing input second with
  | zero =>
      have hnil : input = [] := List.length_eq_zero_iff.mp (Nat.le_zero.mp hfirst)
      subst hnil
      cases second <;> simp [scan, nextToken]
  | succ first ih =>
      cases second with
      | zero =>
          have hnil : input = [] := List.length_eq_zero_iff.mp (Nat.le_zero.mp hsecond)
          subst hnil
          simp [scan, nextToken]
      | succ second =>
          simp only [scan]
          cases hnext : nextToken input with
          | none => rfl
          | some result =>
              have hlt := nextToken_length hnext
              simp only [List.cons.injEq, true_and]
              exact ih (by omega) (by omega)

theorem tokens_of_nextToken {input rest : List Char} {tok : Token}
    (h : nextToken input = some (tok, rest)) : tokens input = tok :: tokens rest := by
  have hlt := nextToken_length h
  obtain ⟨fuel, hfuel⟩ : ∃ fuel, input.length = fuel + 1 := ⟨input.length - 1, by omega⟩
  rw [tokens, hfuel, scan, h]
  exact congrArg (List.cons tok) (scan_of_length_le (by omega) (Nat.le_refl _))

@[simp] theorem tokens_nil : tokens [] = [] := rfl

@[simp] theorem tokens_space (cs : List Char) : tokens (' ' :: cs) = tokens cs := by
  cases hnext : nextToken cs with
  | none =>
      have hcs : nextToken (' ' :: cs) = none := by simpa [nextToken] using hnext
      have hscan : ∀ fuel input, nextToken input = none → scan fuel input = [] := by
        intro fuel input h
        cases fuel <;> simp [scan, h]
      rw [tokens, tokens, hscan _ _ hcs, hscan _ _ hnext]
  | some result =>
      obtain ⟨tok, rest⟩ := result
      have hcs : nextToken (' ' :: cs) = some (tok, rest) := by simpa [nextToken] using hnext
      rw [tokens_of_nextToken hcs, tokens_of_nextToken hnext]

theorem tokens_singleChar {c : Char} (hc : c ∈ singleCharTokens) (cs : List Char) :
    tokens (c :: cs) = .char c :: tokens cs := by
  apply tokens_of_nextToken
  have hspace : singleCharTokens.all (!·.isWhitespace) = true := by decide
  have hchar : c.isWhitespace = false := by simpa using List.all_eq_true.mp hspace c hc
  simp [nextToken, hchar, hc]

@[simp] theorem tokens_to (cs : List Char) : tokens ('-' :: '>' :: cs) = .to :: tokens cs :=
  tokens_of_nextToken rfl

theorem tokens_minus {cs : List Char} (hcs : ∀ c ∈ cs.head?, c ≠ '>') :
    tokens ('-' :: cs) = .char '-' :: tokens cs := by
  apply tokens_of_nextToken
  have hminus : minusToken cs = (.char '-', cs) := by
    unfold minusToken
    split
    · exact absurd rfl (hcs '>' rfl)
    · rfl
  exact congrArg some hminus

@[simp] theorem tokens_le (cs : List Char) :
    tokens ('<' :: '=' :: cs) = .le :: tokens cs :=
  tokens_of_nextToken rfl

@[simp] theorem tokens_eqEq (cs : List Char) :
    tokens ('=' :: '=' :: cs) = .eqEq :: tokens cs :=
  tokens_of_nextToken rfl

@[simp] theorem tokens_lt_space (cs : List Char) :
    tokens ('<' :: ' ' :: cs) = .lt :: tokens cs :=
  (tokens_of_nextToken rfl).trans (by rw [tokens_space])

@[simp] theorem tokens_colon_space (cs : List Char) :
    tokens (':' :: ' ' :: cs) = .char ':' :: tokens cs :=
  (tokens_of_nextToken rfl).trans (by rw [tokens_space])

/-- A text that does not extend a word or a number in front of it. -/
def Boundary (rest : List Char) : Prop :=
  ∀ c ∈ rest.head?, isWordChar c = false ∧ c ≠ '\''

theorem Boundary.not_isDigit {rest : List Char} (h : Boundary rest) :
    ∀ c ∈ rest.head?, c.isDigit = false := by
  intro c hc
  have hword := (h c hc).1
  simp only [isWordChar, Char.isAlphanum, Bool.or_eq_false_iff] at hword
  exact hword.1.2

private theorem takeWhile_append_boundary (p : Char → Bool) (front rest : List Char)
    (hfront : ∀ c ∈ front, p c) (hrest : ∀ c ∈ rest.head?, p c = false) :
    (front ++ rest).takeWhile p = front ∧ (front ++ rest).dropWhile p = rest := by
  have htail : rest.takeWhile p = [] ∧ rest.dropWhile p = rest := by
    cases rest with
    | nil => simp
    | cons c cs => simp [hrest c (by simp)]
  rw [List.takeWhile_append_of_pos hfront, List.dropWhile_append_of_pos hfront]
  simp [htail]

/-- A word the scanner takes as one token. -/
def IsWord (word : String) : Prop :=
  ∃ c cs, word.toList = c :: cs ∧ isWordStart c ∧ ∀ d ∈ cs, isWordChar d

theorem not_isWhitespace_of_isAlphanum {c : Char} (h : isWordChar c) :
    c.isWhitespace = false ∧ c ∉ singleCharTokens ∧ c ≠ '-' := by
  refine ⟨?_, ?_, ?_⟩
  · by_contra hspace
    have hcases : c = ' ' ∨ c = '\t' ∨ c = '\r' ∨ c = '\n' := by
      simp only [Char.isWhitespace, Bool.not_eq_false, Bool.or_eq_true, decide_eq_true_eq] at hspace
      tauto
    rcases hcases with rfl | rfl | rfl | rfl <;> exact absurd h (by decide)
  · intro hc
    have hnone : singleCharTokens.all (!isWordChar ·) = true := by decide
    simpa [h] using List.all_eq_true.mp hnone c hc
  · rintro rfl
    exact absurd h (by decide)

theorem tokens_word {word : String} (hword : IsWord word) {rest : List Char}
    (hrest : Boundary rest) :
    tokens (word.toList ++ rest) = wordToken word :: tokens rest := by
  obtain ⟨c, cs, hlist, hstart, hchars⟩ := hword
  have hc : isWordChar c := by
    simp only [isWordStart, Bool.or_eq_true] at hstart
    simp only [isWordChar, Char.isAlphanum, Bool.or_eq_true]
    tauto
  have hdigit : c.isDigit = false := by
    by_contra h
    simp only [isWordStart, Bool.or_eq_true, beq_iff_eq] at hstart
    rcases hstart with halpha | rfl
    · delta Char.isAlpha Char.isUpper Char.isLower at halpha
      simp only [Char.isDigit, Bool.not_eq_false, Bool.or_eq_true, Bool.and_eq_true,
        decide_eq_true_eq, ge_iff_le, UInt32.le_iff_toNat_le] at halpha h
      have hnine : '9'.val.toNat = 57 := rfl
      have hA : 'A'.val.toNat = 65 := rfl
      have ha : 'a'.val.toNat = 97 := rfl
      omega
    · exact h (by decide)
  obtain ⟨hspace, hsingle, hminus⟩ := not_isWhitespace_of_isAlphanum hc
  obtain ⟨htake, hdrop⟩ := takeWhile_append_boundary isWordChar cs rest hchars
    (fun d hd => (hrest d hd).1)
  obtain ⟨htake', hdrop'⟩ := takeWhile_append_boundary (· == '\'') [] rest
    (by simp) (fun d hd => by simpa using (hrest d hd).2)
  rw [hlist, List.cons_append]
  apply tokens_of_nextToken
  rw [List.nil_append] at htake' hdrop'
  simp [nextToken, hspace, hsingle, hminus, hdigit, hstart, identToken, htake, hdrop, htake',
    hdrop', ← hlist]

theorem tokens_number (n : Nat) {rest : List Char} (hrest : Boundary rest) :
    tokens ((toString n).toList ++ rest) = .value n :: tokens rest := by
  rw [Nat.toString_eq_ofList_toDigits, String.toList_ofList]
  have hdigits : ∀ c ∈ Nat.toDigits 10 n, c.isDigit := fun c hc =>
    Nat.isDigit_of_mem_toDigits (by decide) (by decide) hc
  obtain ⟨c, cs, hlist⟩ : ∃ c cs, Nat.toDigits 10 n = c :: cs := by
    cases hcs : Nat.toDigits 10 n with
    | nil => exact absurd hcs Nat.toDigits_ne_nil
    | cons c cs => exact ⟨c, cs, rfl⟩
  have hvalue : Nat.ofDigitChars 10 (c :: cs) 0 = n := by
    rw [← hlist]
    simp
  rw [hlist] at hdigits ⊢
  have hdigit := hdigits c (by simp)
  have hword : isWordChar c := by simp [isWordChar, Char.isAlphanum, hdigit]
  obtain ⟨hspace, hsingle, hminus⟩ := not_isWhitespace_of_isAlphanum hword
  obtain ⟨htake, hdrop⟩ := takeWhile_append_boundary Char.isDigit cs rest
    (fun d hd => hdigits d (by simp [hd])) hrest.not_isDigit
  rw [List.cons_append]
  apply tokens_of_nextToken
  simp [nextToken, hspace, hsingle, hminus, hdigit, numberToken, htake, hdrop, hvalue]

theorem isWord_ofList {c : Char} {cs : List Char} (hstart : isWordStart c)
    (hchars : ∀ d ∈ cs, isWordChar d) : IsWord (String.ofList (c :: cs)) :=
  ⟨c, cs, String.toList_ofList, hstart, hchars⟩

theorem isWordStart_of_isWordChar {c : Char} (hword : isWordChar c)
    (hdigit : c.isDigit = false) : isWordStart c := by
  simp only [isWordChar, Char.isAlphanum, hdigit, Bool.or_false] at hword
  exact hword

theorem isWord_append {word suffix : String} (hword : IsWord word)
    (hsuffix : ∀ c ∈ suffix.toList, isWordChar c) : IsWord (word ++ suffix) := by
  obtain ⟨c, cs, hlist, hstart, hchars⟩ := hword
  refine ⟨c, cs ++ suffix.toList, by simp [hlist], hstart, ?_⟩
  intro d hd
  rcases List.mem_append.mp hd with hd | hd
  · exact hchars d hd
  · exact hsuffix d hd

theorem isWord_primed {word : String} (hword : IsWord word) : IsWord (word ++ "_p") :=
  isWord_append hword (List.all_eq_true.mp (by decide))

theorem boundary_nil : Boundary [] := by
  intro c hc
  simp at hc

theorem boundary_cons {c : Char} {rest : List Char} (hword : isWordChar c = false)
    (hprime : c ≠ '\'') : Boundary (c :: rest) := by
  intro d hd
  simp only [List.head?_cons, Option.mem_def, Option.some.injEq] at hd
  subst hd
  exact ⟨hword, hprime⟩

@[simp] theorem boundary_space {rest : List Char} : Boundary (' ' :: rest) :=
  boundary_cons (by decide) (by decide)

@[simp] theorem boundary_star {rest : List Char} : Boundary ('*' :: rest) :=
  boundary_cons (by decide) (by decide)

@[simp] theorem boundary_comma {rest : List Char} : Boundary (',' :: rest) :=
  boundary_cons (by decide) (by decide)

@[simp] theorem boundary_bracket {rest : List Char} : Boundary (']' :: rest) :=
  boundary_cons (by decide) (by decide)

/-- The tokens of a printed integer. -/
def intTokens (n : Int) : List Token :=
  if n < 0 then [.char '-', .value n.natAbs] else [.value n]

theorem head_toDigits_ne {n : Nat} {rest : List Char} :
    ∀ c ∈ (Nat.toDigits 10 n ++ rest).head?, c ≠ '>' := by
  intro c hc
  cases hlist : Nat.toDigits 10 n with
  | nil => exact absurd hlist Nat.toDigits_ne_nil
  | cons d ds =>
      rw [hlist, List.cons_append, List.head?_cons, Option.mem_def, Option.some.injEq] at hc
      subst hc
      rintro rfl
      have hdigit : ('>' : Char).isDigit := Nat.isDigit_of_mem_toDigits (b := 10)
        (n := n) (by decide) (by decide) (by rw [hlist]; exact List.mem_cons_self)
      exact absurd hdigit (by decide)

theorem tokens_int (n : Int) {rest : List Char} (hrest : Boundary rest) :
    tokens ((toString n).toList ++ rest) = intTokens n ++ tokens rest := by
  rw [Int.toString_eq_repr, Int.repr_eq_if, intTokens]
  by_cases hneg : n < 0
  · have hnat : (-n).toNat = n.natAbs := by omega
    rw [if_neg (by omega), if_pos hneg, hnat, String.toList_append,
      ← Nat.toString_eq_repr]
    have hminus := @tokens_minus ((toString n.natAbs).toList ++ rest)
      (by rw [Nat.toString_eq_ofList_toDigits, String.toList_ofList]; exact head_toDigits_ne)
    rw [tokens_number _ hrest] at hminus
    exact hminus
  · have hnat : (n.toNat : Int) = n := by omega
    rw [if_pos (by omega), if_neg hneg, ← Nat.toString_eq_repr, tokens_number _ hrest, hnat]
    rfl

end PolyhedralPass.Isl
