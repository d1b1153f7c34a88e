import Inlining.Text
import Mathlib.Data.List.Induction

/-!
# Labels stay inside their quotes

The escaped form of a text stands between double quotes, and the quote behind it must be the first
one that a reader takes for the end. Whether a reader does so depends on how many backslashes come
before a quote: after an odd number the last of them belongs to the quote, after an even number they
are pairs. Escaped texts consist of pairs of a backslash and a character, and of single characters
that have no meaning of their own. So they end in pairs, which is what carries the induction, and
where a character with a meaning occurs, there is one more backslash before it.

Reading goes from left to right and takes the same pairs apart. It gives the text back, except for
carriage returns, which are not written.

## Main definitions

* `Text.Label.backslashes` — the length of the run of backslashes at the end
* `Text.Label.quoted?` — reads a quoted string off a text
* `Text.Label.Unescapes` — what a reader makes of the inside of a label
* `Text.Label.decode` — such a reader

## Main results

* `Text.Label.encodeChar_cases` — what a character is written as
* `Text.Label.even_backslashes_encode`, `Text.Label.odd_backslashes_of_encode` — runs of backslashes
* `Text.Label.escape_closed_and_reversible` — escaped texts stay inside and can be read back
-/

namespace Inlining.Text.Label

/-- The characters that have a meaning in labels, besides the backslash. -/
def delimiters : List Char := ['"', '<', '>']

/-- The characters that are escaped by a backslash and stay what they are. -/
def escaped : List Char := '\\' :: delimiters

/-- The length of the run of backslashes at the end of a text. -/
def backslashes (cs : List Char) : Nat := (cs.reverse.takeWhile (· == '\\')).length

/-- Reads the inside of a quoted string up to the quote that closes it, and gives back what comes
behind. A backslash takes the next character along, whichever it is. -/
def inside? : List Char → Option (List Char × List Char)
  | [] => none
  | '"' :: rest => some ([], rest)
  | '\\' :: c :: cs => (inside? cs).map fun (body, rest) => ('\\' :: c :: body, rest)
  | c :: cs => (inside? cs).map fun (body, rest) => (c :: body, rest)

/-- Reads a quoted string off a text. -/
def quoted? : List Char → Option (List Char × List Char)
  | '"' :: cs => inside? cs
  | _ => none

/-- Reading from left to right: a backslash and an `n` are a line feed, a backslash takes the
meaning from a character that has one, and other characters stand for themselves. What a backslash
before yet another character means is left open. -/
structure Unescapes (read : List Char → List Char) : Prop where
  nil : read [] = []
  lineFeed : ∀ cs, read ('\\' :: 'n' :: cs) = '\n' :: read cs
  kept : ∀ c ∈ escaped, ∀ cs, read ('\\' :: c :: cs) = c :: read cs
  plain : ∀ c, c ≠ '\\' → ∀ cs, read (c :: cs) = c :: read cs

/-- The text that a label spells: `\n` is a line feed and any other character after a backslash
stands for itself. -/
def decode : List Char → List Char
  | [] => []
  | ['\\'] => ['\\']
  | '\\' :: 'n' :: cs => '\n' :: decode cs
  | '\\' :: c :: cs => c :: decode cs
  | c :: cs => c :: decode cs

/-! ### One character -/

/-- What a character is written as. -/
theorem encodeChar_cases (c : Char) :
    c = '\r' ∧ encodeChar c = [] ∨ c = '\n' ∧ encodeChar c = ['\\', 'n'] ∨
    c ∈ escaped ∧ encodeChar c = ['\\', c] ∨
    (c ∉ escaped ∧ c ≠ '\n' ∧ c ≠ '\r') ∧ encodeChar c = [c] := by
  unfold encodeChar
  split <;> simp_all [escaped, delimiters]

theorem encode_cons (c : Char) (cs : List Char) : encode (c :: cs) = encodeChar c ++ encode cs :=
  List.flatMap_cons

theorem encode_append_singleton (cs : List Char) (c : Char) :
    encode (cs ++ [c]) = encode cs ++ encodeChar c := by
  simp [encode]

theorem backslashes_append_backslash (cs : List Char) :
    backslashes (cs ++ ['\\']) = backslashes cs + 1 := by
  simp [backslashes]

theorem backslashes_append_of_ne (cs : List Char) {c : Char} (hc : c ≠ '\\') :
    backslashes (cs ++ [c]) = 0 := by
  simp [backslashes, hc]

/-! ### Runs of backslashes -/

/-- An escaped text ends in pairs of backslashes, if in any. -/
theorem even_backslashes_encode (cs : List Char) : backslashes (encode cs) % 2 = 0 := by
  induction cs using List.reverseRecOn with
  | nil => rfl
  | append_singleton cs c ih =>
    rw [encode_append_singleton]
    rcases encodeChar_cases c with ⟨-, heq⟩ | ⟨-, heq⟩ | ⟨-, heq⟩ | ⟨hplain, heq⟩
    · rwa [heq, List.append_nil]
    · rw [heq, List.append_cons, backslashes_append_of_ne _ (by decide)]
    · rw [heq, List.append_cons]
      by_cases hc : c = '\\'
      · rw [hc, backslashes_append_backslash, backslashes_append_backslash]
        omega
      · rw [backslashes_append_of_ne _ hc]
    · rw [heq, backslashes_append_of_ne]
      rintro rfl
      exact hplain.1 List.mem_cons_self

theorem ne_backslash_of_mem_delimiters {q : Char} (hq : q ∈ delimiters) : q ≠ '\\' := by
  rintro rfl
  exact absurd hq (by decide)

/-- In the spelling of a character a delimiter comes right behind a backslash. -/
theorem eq_backslash_of_encodeChar {c q : Char} {before after : List Char}
    (h : encodeChar c = before ++ q :: after) (hq : q ∈ delimiters) : before = ['\\'] := by
  have hpair : ∀ d, ['\\', d] = before ++ q :: after → before = ['\\'] := by
    intro d hd
    rcases List.cons_eq_append_iff.mp hd with ⟨-, hfirst⟩ | ⟨mid, rfl, hrest⟩
    · exact absurd (List.cons.inj hfirst).1 (ne_backslash_of_mem_delimiters hq)
    · rcases List.cons_eq_append_iff.mp hrest with ⟨rfl, -⟩ | ⟨_, -, hnil⟩
      · rfl
      · simp at hnil
  rcases encodeChar_cases c with ⟨-, heq⟩ | ⟨-, heq⟩ | ⟨-, heq⟩ | ⟨⟨hplain, -⟩, heq⟩ <;>
    rw [heq] at h
  · simp at h
  · exact hpair 'n' h
  · exact hpair c h
  · have hmem : q ∈ [c] := by rw [h]; simp
    rw [List.mem_singleton.mp hmem] at hq
    exact absurd (List.mem_cons_of_mem _ hq) hplain

/-- Before a delimiter stands an odd number of backslashes. -/
theorem odd_backslashes_of_encode {cs before after : List Char} {q : Char}
    (h : encode cs = before ++ q :: after) (hq : q ∈ delimiters) :
    backslashes before % 2 = 1 := by
  induction cs using List.reverseRecOn generalizing after with
  | nil => simp [encode] at h
  | append_singleton cs c ih =>
    -- The delimiter belongs to the spelling of the last character, or it was there before.
    have hlast : ∀ mid, encodeChar c = mid ++ q :: after →
        backslashes (encode cs ++ mid) % 2 = 1 := by
      intro mid hchar
      rw [eq_backslash_of_encodeChar hchar hq, backslashes_append_backslash]
      have := even_backslashes_encode cs
      omega
    rw [encode_append_singleton, List.append_eq_append_iff] at h
    rcases h with ⟨mid, rfl, hchar⟩ | ⟨mid, hcs, hafter⟩
    · exact hlast mid hchar
    · rcases List.cons_eq_append_iff.mp hafter with ⟨rfl, hchar⟩ | ⟨rest, rfl, -⟩
      · rw [List.append_nil] at hcs
        rw [← hcs, ← List.append_nil (encode cs)]
        exact hlast [] hchar
      · exact ih hcs

/-! ### Reading -/

/-- A reader of quoted strings takes the escaped form whole. -/
theorem inside?_encode (cs rest : List Char) :
    inside? (encode cs ++ '"' :: rest) = some (encode cs, rest) := by
  induction cs with
  | nil => rfl
  | cons c cs ih =>
    rw [encode_cons, List.append_assoc]
    rcases encodeChar_cases c with ⟨-, heq⟩ | ⟨-, heq⟩ | ⟨-, heq⟩ | ⟨⟨hplain, -⟩, heq⟩ <;> rw [heq]
    · exact ih
    · simp [inside?, ih]
    · simp [inside?, ih]
    · simp only [escaped, delimiters, List.mem_cons, not_or] at hplain
      simp [inside?, ih, hplain]

theorem unescapes_decode : Unescapes decode where
  nil := rfl
  lineFeed _ := by rw [decode]
  kept c hc cs := by
    rw [decode]
    rintro rfl
    exact absurd hc (by decide)
  plain c hc cs := by simp [decode, hc]

/-- Reading gives the text back without its carriage returns. -/
theorem Unescapes.read_encode {read : List Char → List Char} (h : Unescapes read) (cs : List Char) :
    read (encode cs) = cs.filter (· != '\r') := by
  induction cs with
  | nil => exact h.nil
  | cons c cs ih =>
    rw [encode_cons]
    rcases encodeChar_cases c with ⟨rfl, heq⟩ | ⟨rfl, heq⟩ | ⟨hc, heq⟩ | ⟨⟨hplain, -, hc⟩, heq⟩ <;>
      rw [heq]
    · exact ih
    · exact (h.lineFeed _).trans (congrArg ('\n' :: ·) ih)
    · have hne : c ≠ '\r' := by
        rintro rfl
        exact absurd hc (by decide)
      rw [List.filter_cons_of_pos (by simpa using hne), ← ih]
      exact h.kept c hc _
    · rw [List.filter_cons_of_pos (by simpa using hc), ← ih]
      refine h.plain c ?_ _
      rintro rfl
      exact hplain List.mem_cons_self

/-- Line breaks of neither kind are written. -/
theorem ne_of_mem_encode {cs : List Char} {c : Char} (h : c ∈ encode cs) : c ≠ '\n' ∧ c ≠ '\r' := by
  obtain ⟨d, -, hc⟩ := List.mem_flatMap.mp h
  rcases encodeChar_cases d with ⟨-, heq⟩ | ⟨-, heq⟩ | ⟨hd, heq⟩ | ⟨⟨-, hd⟩, heq⟩ <;> rw [heq] at hc
  · simp at hc
  · simp only [List.mem_cons, List.not_mem_nil, or_false] at hc
    rcases hc with rfl | rfl <;> decide
  · simp only [escaped, delimiters, List.mem_cons, List.not_mem_nil, or_false] at hd hc
    rcases hc with rfl | rfl
    · decide
    · rcases hd with rfl | rfl | rfl | rfl <;> decide
  · rw [List.mem_singleton.mp hc]
    exact hd

/-- **Escaped texts stay inside their quotes and can be read back.** The escaped form of a text has
no line breaks, an odd number of backslashes before every quote and angle bracket, and an even
number of them at its end. Between quotes it is therefore one string, whatever comes behind. Reading
it gives the text back without its carriage returns, and texts without these have different escaped
forms. -/
theorem escape_closed_and_reversible (s : String) :
    (∀ c ∈ (escape s).toList, c ≠ '\n' ∧ c ≠ '\r') ∧
    (∀ before q after, (escape s).toList = before ++ q :: after → q ∈ ['"', '<', '>'] →
      backslashes before % 2 = 1) ∧
    backslashes (escape s).toList % 2 = 0 ∧
    (∀ rest, quoted? ('"' :: (escape s).toList ++ '"' :: rest) = some ((escape s).toList, rest)) ∧
    Unescapes decode ∧
    (∀ read, Unescapes read → read (escape s).toList = s.toList.filter (· != '\r')) ∧
    ∀ t : String, '\r' ∉ s.toList → '\r' ∉ t.toList → escape s = escape t → s = t := by
  have htext : ∀ u : String, (escape u).toList = encode u.toList := fun u => String.toList_ofList
  simp only [htext]
  refine ⟨fun c => ne_of_mem_encode, fun _ _ _ h hq => odd_backslashes_of_encode h hq,
    even_backslashes_encode _, inside?_encode _, unescapes_decode, fun _ h => h.read_encode _,
    fun t hs ht heq => ?_⟩
  have hkept : ∀ u : String, '\r' ∉ u.toList → decode (escape u).toList = u.toList := by
    intro u hu
    rw [htext, unescapes_decode.read_encode, List.filter_eq_self]
    intro c hc
    rw [bne_iff_ne]
    rintro rfl
    exact hu hc
  rw [← String.toList_inj, ← hkept s hs, ← hkept t ht, heq]

/-- A text that ends in a backslash after a quote, and that has a backslash and an `n` besides a
line feed. Had the quote no backslash before it, the string would end there. -/
theorem escape_closed_and_reversible_tail :
    (escape "\\n\n\r<\"\\").toList = "\\\\n\\n\\<\\\"\\\\".toList ∧
    quoted? ('"' :: (escape "\\n\n\r<\"\\").toList ++ '"' :: [']']) =
      some ((escape "\\n\n\r<\"\\").toList, [']']) ∧
    decode (escape "\\n\n\r<\"\\").toList = "\\n\n<\"\\".toList ∧
    escape "\\n" ≠ escape "\n" := by
  obtain ⟨-, -, -, hquoted, hdecode, hread, -⟩ := escape_closed_and_reversible "\\n\n\r<\"\\"
  obtain ⟨-, -, -, -, -, -, hinj⟩ := escape_closed_and_reversible "\\n"
  refine ⟨by decide, hquoted [']'], (hread decode hdecode).trans (by decide),
    fun heq => ?_⟩
  exact absurd (hinj "\n" (by decide) (by decide) heq) (by decide)

end Inlining.Text.Label
