import HiccupReader.Listing
import HiccupReader.Proofs.Clojure.Coverage
import HiccupReader.Proofs.Clojure.Separation
import HiccupReader.Proofs.RuleTable

/-! Listings of tokens. A row holds the name, the range and the text of a token, with blanks between
them. A text with line ends of its own takes as many more lines, and yet no two lists of tokens have
the same listing: a name ends at a blank, a number at what is no digit, and a text where the range
says. -/

namespace HiccupReader

theorem join_eq_empty_iff {texts : List String} :
    String.join texts = "" ↔ ∀ text ∈ texts, text = "" := by
  induction texts with
  | nil => simp
  | cons text texts ih => simp [String.append_eq_empty_iff, ih]

namespace Listing

open Text Matching

variable {table : RuleTable} {token other : Token} {ts us : List Token} {name : String}

def digits (n : Nat) : List Char := (toString n).toList

def fill (width : Nat) (cs : List Char) : Nat := width - cs.length

def row (name : List Char) (before behind : Nat) (token : Token) (rest : List Char) : List Char :=
  name ++ (List.replicate (before + 1) ' ' ++ (digits token.span.start ++ '.' :: '.' ::
    (digits token.span.stop ++ (List.replicate (behind + 1) ' ' ++ (token.text.toList ++ rest)))))

theorem isDigit_of_mem_digits {n : Nat} {c : Char} (h : c ∈ digits n) : c.isDigit = true := by
  rw [digits, Nat.toString_eq_repr, Nat.toList_repr] at h
  exact Nat.isDigit_of_mem_toDigits (by decide) (by decide) h

theorem digits_ne_nil (n : Nat) : digits n ≠ [] := by
  rw [digits, Nat.toString_eq_repr, Nat.toList_repr]
  exact Nat.toDigits_ne_nil

theorem digits_injective {m n : Nat} (h : digits m = digits n) : m = n := by
  rw [digits, digits, Nat.toString_eq_repr, Nat.toString_eq_repr, Nat.toList_repr,
    Nat.toList_repr] at h
  rw [← Nat.ofDigitChars_ten_toDigits (n := m), h, Nat.ofDigitChars_ten_toDigits]

theorem toList_padRight (width : Nat) (text : String) :
    (padRight width text).toList = text.toList ++ List.replicate (fill width text.toList) ' ' := by
  rw [padRight, blanks, String.toList_append, String.toList_ofList, fill, String.length_toList]

theorem toList_padLeft (width : Nat) (text : String) :
    (padLeft width text).toList = List.replicate (fill width text.toList) ' ' ++ text.toList := by
  rw [padLeft, blanks, String.toList_append, String.toList_ofList, fill, String.length_toList]

theorem blanks_append (m n : Nat) (rest : List Char) :
    List.replicate m ' ' ++ ' ' :: (List.replicate n ' ' ++ rest) =
      List.replicate (m + n + 1) ' ' ++ rest := by
  rw [← List.cons_append, ← List.replicate_succ, ← List.append_assoc,
    List.replicate_append_replicate, Nat.add_assoc]

theorem toList_tokenLine (h : table.name? token.rule = some name) (rest : List Char) :
    (tokenLine table token).toList ++ rest =
      row name.toList (fill 16 name.toList + fill 5 (digits token.span.start))
        (fill 5 (digits token.span.stop)) token ('\n' :: rest) := by
  have hblank (n : Nat) (rest : List Char) : List.replicate n ' ' ++ ' ' :: rest =
      List.replicate (n + 1) ' ' ++ rest := blanks_append n 0 rest
  simp only [tokenLine, h, Option.getD_some, String.toList_append, toList_padRight, toList_padLeft]
  simp only [List.append_assoc, row, ← blanks_append]
  simp [digits, hblank]

theorem toList_tokens_cons (token : Token) (ts : List Token) :
    (tokens table (token :: ts)).toList =
      (tokenLine table token).toList ++ (tokens table ts).toList := by
  simp [tokens]

theorem tokens_eq_empty_iff : tokens table ts = "" ↔ ts = [] := by
  rw [tokens, join_eq_empty_iff]
  cases ts with
  | nil => simp
  | cons token ts => simp [tokenLine, String.append_eq_empty_iff]

/-- A token of the table whose name holds neither blanks nor line ends and whose range is as long
as its text. -/
structure Legible (table : RuleTable) (token : Token) : Prop where
  named : ∃ name, table.name? token.rule = some name ∧ ' ' ∉ name.toList ∧ '\n' ∉ name.toList
  measured : token.span.stop = token.span.start + byteLength token.text.toList

theorem any_blank_digits (n : Nat) (rest : List Char) :
    (digits n ++ rest).head?.any (· == ' ') = false := by
  obtain ⟨c, cs, hdigits⟩ := List.exists_cons_of_ne_nil (digits_ne_nil n)
  have hdigit : c.isDigit = true := isDigit_of_mem_digits (hdigits ▸ List.mem_cons_self ..)
  rw [hdigits]
  simp only [List.cons_append, List.head?_cons, Option.any_some, beq_eq_false_iff_ne]
  rintro rfl
  cases hdigit

theorem row_inj {name name' rest rest' : List Char} {m n m' n' : Nat} (hname : ' ' ∉ name)
    (hname' : ' ' ∉ name') (h : row name m n token rest = row name' m' n' other rest') :
    name = name' ∧ token.span = other.span ∧
      List.replicate (n + 1) ' ' ++ (token.text.toList ++ rest) =
        List.replicate (n' + 1) ' ' ++ (other.text.toList ++ rest') := by
  have hnonblank {cs : List Char} (hcs : ' ' ∉ cs) : ∀ c ∈ cs, (c != ' ') = true := by
    intro c hc
    rw [bne_iff_ne]
    rintro rfl
    exact hcs hc
  have hblank (k : Nat) : ∀ c ∈ List.replicate k ' ', (c == ' ') = true := by
    intro c hc
    exact beq_iff_eq.2 (List.eq_of_mem_replicate hc)
  have hdigit (k : Nat) : ∀ c ∈ digits k, c.isDigit = true := fun c => isDigit_of_mem_digits
  obtain ⟨hnames, hranges⟩ := Recogniser.run_unique (hnonblank hname) (hnonblank hname') rfl rfl h
  obtain ⟨-, hstarts⟩ :=
    Recogniser.run_unique (hblank _) (hblank _) (any_blank_digits ..) (any_blank_digits ..) hranges
  obtain ⟨hstart, hdots⟩ := Recogniser.run_unique (hdigit _) (hdigit _) rfl rfl hstarts
  obtain ⟨hstop, htexts⟩ :=
    Recogniser.run_unique (hdigit _) (hdigit _) rfl rfl (List.cons.inj (List.cons.inj hdots).2).2
  refine ⟨hnames, ?_, htexts⟩
  rw [Span.mk.injEq]
  exact ⟨digits_injective hstart, digits_injective hstop⟩

theorem tokenLine_inj {xs ys : List Char} (htoken : Legible table token)
    (hother : Legible table other)
    (h : (tokenLine table token).toList ++ xs = (tokenLine table other).toList ++ ys) :
    token = other ∧ xs = ys := by
  obtain ⟨⟨name, hname, hplain, -⟩, hlength⟩ := htoken
  obtain ⟨⟨name', hname', hplain', -⟩, hlength'⟩ := hother
  rw [toList_tokenLine hname, toList_tokenLine hname'] at h
  obtain ⟨hnames, hspan, hrest⟩ := row_inj hplain hplain' h
  have hrule : token.rule = other.rule := by
    rw [String.toList_inj.1 hnames] at hname
    exact RuleTable.name?_injective hname hname'
  -- The ranges are the same, so that the texts take as many bytes.
  have hbytes : byteLength token.text.toList = byteLength other.text.toList := by
    rw [hspan] at hlength
    omega
  rw [hspan, List.append_cancel_left_eq] at hrest
  obtain ⟨htext, hbehind⟩ := Clojure.eq_of_byteLength hrest hbytes
  refine ⟨?_, (List.cons.inj hbehind).2⟩
  rw [Token.mk.injEq]
  exact ⟨hrule, String.toList_inj.1 htext, hspan⟩

theorem tokens_inj (hts : ∀ token ∈ ts, Legible table token)
    (hus : ∀ token ∈ us, Legible table token) (h : tokens table ts = tokens table us) :
    ts = us := by
  induction ts generalizing us with
  | nil => exact (tokens_eq_empty_iff.1 h.symm).symm
  | cons token ts ih =>
    cases us with
    | nil => exact tokens_eq_empty_iff.1 h
    | cons other us =>
      obtain ⟨htoken, htokens⟩ := List.forall_mem_cons.1 hts
      obtain ⟨hother, hothers⟩ := List.forall_mem_cons.1 hus
      rw [← String.toList_inj, toList_tokens_cons, toList_tokens_cons] at h
      obtain ⟨hfirst, hrest⟩ := tokenLine_inj htoken hother h
      rw [hfirst, ih htokens hothers (String.toList_inj.1 hrest)]

def linesOf : List Char → List (List Char)
  | [] => []
  | c :: cs =>
    if c = '\n' then [] :: linesOf cs
    else
      match linesOf cs with
      | [] => [[c]]
      | line :: lines => (c :: line) :: lines

theorem linesOf_append {line : List Char} (h : '\n' ∉ line) (rest : List Char) :
    linesOf (line ++ '\n' :: rest) = line :: linesOf rest := by
  induction line with
  | nil => simp [linesOf]
  | cons c line ih =>
    rw [List.mem_cons, not_or] at h
    rw [List.cons_append, linesOf, if_neg (Ne.symm h.1), ih h.2]

theorem length_linesOf_append (cs rest : List Char) :
    (linesOf (cs ++ '\n' :: rest)).length = cs.count '\n' + 1 + (linesOf rest).length := by
  induction cs with
  | nil => simp [linesOf, Nat.add_comm]
  | cons c cs ih =>
    rw [List.cons_append, linesOf]
    split
    · next hc =>
      rw [List.length_cons, ih, hc, List.count_cons_self]
      omega
    · next hc =>
      rw [List.count_cons_of_ne hc, ← ih]
      -- The line end behind makes sure that there is a line to put the character in.
      cases hlines : linesOf (cs ++ '\n' :: rest) with
      | nil =>
        rw [hlines, List.length_nil] at ih
        omega
      | cons line lines => rfl

def Tells (table : RuleTable) (token : Token) (line : List Char) : Prop :=
  ∃ name before behind, table.name? token.rule = some name ∧
    line = row name.toList before behind token []

theorem row_append (name : List Char) (before behind : Nat) (token : Token) (rest : List Char) :
    row name before behind token rest = row name before behind token [] ++ rest := by
  simp [row]

theorem count_row {c : Char} (hblank : c ≠ ' ') (hdot : c ≠ '.') (hdigit : c.isDigit = false)
    (name : List Char) (before behind : Nat) (token : Token) (rest : List Char) :
    (row name before behind token rest).count c =
      name.count c + token.text.toList.count c + rest.count c := by
  have hdigits (n : Nat) : (digits n).count c = 0 := by
    rw [List.count_eq_zero]
    intro hmem
    rw [isDigit_of_mem_digits hmem] at hdigit
    cases hdigit
  have hblanks (n : Nat) : (List.replicate n ' ').count c = 0 := by
    rw [List.count_eq_zero, List.mem_replicate]
    exact fun h => hblank h.2
  simp only [row, List.count_append, List.count_cons_of_ne hdot.symm, hdigits, hblanks]
  omega

theorem count_tokenLine (h : Legible table token) (rest : List Char) :
    ∃ line, (tokenLine table token).toList ++ rest = line ++ '\n' :: rest ∧
      Tells table token line ∧ line.count '\n' = token.text.toList.count '\n' := by
  obtain ⟨name, hname, -, hplain⟩ := h.named
  rw [toList_tokenLine hname, row_append]
  refine ⟨_, rfl, ⟨name, _, _, hname, rfl⟩, ?_⟩
  rw [count_row (by decide) (by decide) (by decide), List.count_eq_zero.2 hplain]
  simp

theorem length_linesOf_tokens (h : ∀ token ∈ ts, Legible table token) :
    (linesOf (tokens table ts).toList).length =
      ts.length + (ts.flatMap fun token => token.text.toList).count '\n' := by
  induction ts with
  | nil => rfl
  | cons token ts ih =>
    obtain ⟨htoken, hts⟩ := List.forall_mem_cons.1 h
    obtain ⟨line, hline, -, hcount⟩ := count_tokenLine htoken (tokens table ts).toList
    rw [toList_tokens_cons, hline, length_linesOf_append, hcount, ih hts, List.length_cons,
      List.flatMap_cons, List.count_append]
    omega

theorem tells_linesOf_tokens (h : ∀ token ∈ ts, Legible table token)
    (htexts : ∀ token ∈ ts, '\n' ∉ token.text.toList) :
    List.Forall₂ (Tells table) ts (linesOf (tokens table ts).toList) := by
  induction ts with
  | nil => exact .nil
  | cons token ts ih =>
    obtain ⟨htoken, hts⟩ := List.forall_mem_cons.1 h
    obtain ⟨htext, htexts⟩ := List.forall_mem_cons.1 htexts
    obtain ⟨line, hline, htells, hcount⟩ := count_tokenLine htoken (tokens table ts).toList
    have hplain : '\n' ∉ line := by
      rw [← List.count_eq_zero, hcount]
      exact List.count_eq_zero.2 htext
    rw [toList_tokens_cons, hline, linesOf_append hplain]
    exact .cons htells (ih hts htexts)

theorem forall₂_tells_iff (h : ∀ token ∈ ts, Legible table token) :
    List.Forall₂ (Tells table) ts (linesOf (tokens table ts).toList) ↔
      ∀ token ∈ ts, '\n' ∉ token.text.toList := by
  refine ⟨fun htells token htoken => ?_, tells_linesOf_tokens h⟩
  have hlength := htells.length_eq
  rw [length_linesOf_tokens h, Nat.left_eq_add, List.count_eq_zero] at hlength
  exact fun hmem => hlength (List.mem_flatMap.2 ⟨token, htoken, hmem⟩)

end Listing
end HiccupReader
