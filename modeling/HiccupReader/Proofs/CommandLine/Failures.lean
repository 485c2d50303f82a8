import HiccupReader.Proofs.Clojure.Parse
import HiccupReader.Proofs.CommandLine.Sources
import HiccupReader.Proofs.Listing
import Mathlib.Data.List.TakeWhile

/-! What a run has printed when it fails. Nothing is printed before all is read and worked on, but
for listings of tokens: there each source is listed as soon as it is cut, and what was listed stays
when a later source is refused. -/

namespace HiccupReader.CommandLine

variable {world : Files.World} {standardInput : ByteArray} {arguments : List String}
  {reader : Reader} {sources : List Source} {source : Source}

def Lists (world : Files.World) (standardInput : ByteArray) (arguments : List String)
    (reader : Reader) (sources : List Source) : Prop :=
  ∃ invocation input settings, readArguments arguments = .ok invocation ∧
    invocation.command = .tokens input ∧ settingsFor world invocation = .ok settings ∧
      readerFor settings = .ok reader ∧ sourcesFor world standardInput input = .ok sources

def accepted (reader : Reader) (sources : List Source) : List Source :=
  sources.takeWhile fun source => (reader.tokens source).isOk

def listingOf (reader : Reader) (source : Source) : String :=
  (reader.tokens source).toOption.elim "" (Listing.tokens reader.layout.table)

theorem tokens_eq_ok_iff {tokens : List Token} :
    reader.tokens source = .ok tokens ↔ Clojure.lex source.text = .ok tokens :=
  mapError_eq_ok_iff

theorem listTokens_cons (output : String) :
    listTokens reader output (source :: sources) =
      match reader.tokens source with
      | .error fault => .failed output (fault.diagnostic source)
      | .ok tokens =>
        listTokens reader (output ++ Listing.tokens reader.layout.table tokens) sources := by
  rfl

theorem output_listTokens (reader : Reader) (output : String) (sources : List Source) :
    (listTokens reader output sources).output =
      output ++ String.join ((accepted reader sources).map (listingOf reader)) := by
  induction sources generalizing output with
  | nil => exact String.append_empty.symm
  | cons source sources ih =>
    rw [listTokens_cons, accepted]
    cases h : reader.tokens source with
    | ok tokens =>
      have hlisting : listingOf reader source = Listing.tokens reader.layout.table tokens := by
        rw [listingOf, h]
        rfl
      rw [List.takeWhile_cons_of_pos (by rw [h]; rfl), List.map_cons, String.join_cons, hlisting,
        ← String.append_assoc]
      exact ih _
    | error fault =>
      rw [List.takeWhile_cons_of_neg (by rw [h]; exact Bool.false_ne_true)]
      exact String.append_empty.symm

theorem exitCode_listTokens (reader : Reader) (output : String) (sources : List Source) :
    (listTokens reader output sources).exitCode = 0 ↔
      ∀ source ∈ sources, ∃ tokens, reader.tokens source = .ok tokens := by
  induction sources generalizing output with
  | nil => exact iff_of_true rfl (List.forall_mem_nil _)
  | cons source sources ih =>
    rw [listTokens_cons, List.forall_mem_cons]
    cases h : reader.tokens source with
    | ok tokens => exact (ih _).trans (and_iff_right ⟨tokens, rfl⟩).symm
    | error fault => exact iff_of_false Nat.one_ne_zero fun hall => by cases hall.1.choose_spec

theorem listingOf_eq_empty_iff (h : source ∈ accepted reader sources) :
    listingOf reader source = "" ↔ reader.tokens source = .ok [] := by
  have hok := List.mem_takeWhile_imp h
  rw [listingOf]
  cases htokens : reader.tokens source with
  | ok tokens =>
    change Listing.tokens reader.layout.table tokens = "" ↔ _
    rw [Listing.tokens_eq_empty_iff, Except.ok.injEq]
  | error fault =>
    rw [htokens] at hok
    cases hok

theorem Lists.run_eq (h : Lists world standardInput arguments reader sources) :
    run world standardInput arguments = listTokens reader "" sources := by
  obtain ⟨invocation, input, settings, hread, hcommand, hsettings, hreader, hsources⟩ := h
  rw [run, hread]
  simp only [runInvocation, hsettings, hcommand, ok_bind, runCommand, hreader, hsources]
  rfl

theorem Lists.eq {reader' : Reader} {sources' : List Source}
    (h : Lists world standardInput arguments reader sources)
    (h' : Lists world standardInput arguments reader' sources') :
    reader = reader' ∧ sources = sources' := by
  obtain ⟨invocation, input, settings, hread, hcommand, hsettings, hreader, hsources⟩ := h
  obtain ⟨invocation', input', settings', hread', hcommand', hsettings', hreader', hsources'⟩ := h'
  obtain rfl := Except.ok.inj (hread.symm.trans hread')
  obtain rfl := Command.tokens.inj (hcommand.symm.trans hcommand')
  obtain rfl := Except.ok.inj (hsettings.symm.trans hsettings')
  exact ⟨Except.ok.inj (hreader.symm.trans hreader'),
    Except.ok.inj (hsources.symm.trans hsources')⟩

theorem exitCode_of_runCommand {settings : Settings} {command : Command} {outcome : Outcome}
    (h : runCommand world standardInput settings command = .ok outcome) :
    outcome.exitCode = 0 ∨ ∃ input reader sources, command = .tokens input ∧
      readerFor settings = .ok reader ∧ sourcesFor world standardInput input = .ok sources := by
  cases command with
  | hiccup input compact =>
    obtain ⟨reader, -, h⟩ := bind_eq_ok_iff.1 h
    obtain ⟨sources, -, h⟩ := bind_eq_ok_iff.1 h
    obtain ⟨documents, -, h⟩ := bind_eq_ok_iff.1 h
    obtain rfl := Except.ok.inj h
    exact .inl rfl
  | tokens input =>
    obtain ⟨reader, hreader, h⟩ := bind_eq_ok_iff.1 h
    obtain ⟨sources, hsources, -⟩ := bind_eq_ok_iff.1 h
    exact .inr ⟨input, reader, sources, rfl, hreader, hsources⟩
  | rules =>
    obtain ⟨reader, -, h⟩ := bind_eq_ok_iff.1 h
    obtain rfl := Except.ok.inj h
    exact .inl rfl

theorem output_eq_empty_of_not_lists
    (h : ∀ reader sources, ¬ Lists world standardInput arguments reader sources)
    (hexit : (run world standardInput arguments).exitCode ≠ 0) :
    (run world standardInput arguments).output = "" := by
  rw [run] at hexit ⊢
  cases hread : readArguments arguments with
  | error halt =>
    rw [hread] at hexit
    cases halt with
    | version => exact absurd rfl hexit
    | help => exact absurd rfl hexit
    | misused error => rfl
  | ok invocation =>
    rw [hread] at hexit
    simp only [runInvocation] at hexit ⊢
    cases hrun : settingsFor world invocation >>= fun settings =>
        runCommand world standardInput settings invocation.command with
    | error failure => rfl
    | ok outcome =>
      rw [hrun] at hexit
      obtain ⟨settings, hsettings, hcommand⟩ := bind_eq_ok_iff.1 hrun
      rcases exitCode_of_runCommand hcommand with hzero | ⟨input, reader, sources, hinput, hrest⟩
      · exact absurd hzero hexit
      · exact absurd ⟨invocation, input, settings, hread, hinput, hsettings, hrest⟩
          (h reader sources)

/-- A run that fails has printed nothing, just if no token stands in front of the first source that
is refused among those whose tokens it lists. -/
theorem output_eq_empty_iff (world : Files.World) (standardInput : ByteArray)
    (arguments : List String) (h : (run world standardInput arguments).exitCode ≠ 0) :
    (run world standardInput arguments).output = "" ↔
      ∀ reader sources, Lists world standardInput arguments reader sources →
        ∀ source ∈ accepted reader sources, reader.tokens source = .ok [] := by
  constructor
  · intro hempty reader sources hlists source hsource
    rw [hlists.run_eq, output_listTokens, String.empty_append, join_eq_empty_iff] at hempty
    exact (listingOf_eq_empty_iff hsource).1 (hempty _ (List.mem_map_of_mem hsource))
  · intro hnone
    by_cases hlists : ∃ reader sources, Lists world standardInput arguments reader sources
    · obtain ⟨reader, sources, hlists⟩ := hlists
      rw [hlists.run_eq, output_listTokens, String.empty_append, join_eq_empty_iff]
      rintro text htext
      obtain ⟨source, hsource, rfl⟩ := List.mem_map.1 htext
      exact (listingOf_eq_empty_iff hsource).2 (hnone reader sources hlists source hsource)
    · exact output_eq_empty_of_not_lists (fun reader sources h => hlists ⟨reader, sources, h⟩) h

theorem lists_pairFolder (first second : String) :
    ∃ reader, Lists (pairFolder first second) .empty ["tokens", "d"] reader
      [⟨"d/a.clj", first⟩, ⟨"d/b.clj", second⟩] := by
  obtain ⟨reader, hreader⟩ : ∃ reader, readerFor {} = .ok reader :=
    Clojure.exists_eq_ok (by decide)
  have hread : readArguments ["tokens", "d"] = .ok ⟨.tokens (.paths ["d"]), none, none, []⟩ := by
    decide
  refine ⟨reader, _, _, {}, hread, rfl, rfl, hreader, ?_⟩
  exact sourcesFor_paths_eq_ok_iff.2
    ⟨_, findSources_pairFolder first second, readSources_pairFolder first second⟩

theorem accepted_cons_of_ok {tokens : List Token} (h : reader.tokens source = .ok tokens) :
    accepted reader (source :: sources) = source :: accepted reader sources :=
  List.takeWhile_cons_of_pos (by rw [h]; rfl)

theorem accepted_cons_of_error {fault : Reader.Fault} (h : reader.tokens source = .error fault) :
    accepted reader (source :: sources) = [] :=
  List.takeWhile_cons_of_neg (by rw [h]; exact Bool.false_ne_true)

theorem refuses_unclosed_string (reader : Reader) (name : String) :
    ∃ fault, reader.tokens ⟨name, "\""⟩ = .error fault := by
  cases h : reader.tokens ⟨name, "\""⟩ with
  | error fault => exact ⟨fault, rfl⟩
  | ok tokens =>
    rw [tokens_eq_ok_iff] at h
    have hrefused : (Clojure.lex "\"").toOption = none := by decide
    rw [h] at hrefused
    cases hrefused

theorem exitCode_pairFolder (first : String) :
    (run (pairFolder first "\"") .empty ["tokens", "d"]).exitCode ≠ 0 := by
  obtain ⟨reader, hlists⟩ := lists_pairFolder first "\""
  obtain ⟨fault, hfault⟩ := refuses_unclosed_string reader "d/b.clj"
  rw [hlists.run_eq, Ne, exitCode_listTokens]
  intro hall
  obtain ⟨tokens, htokens⟩ := hall ⟨"d/b.clj", "\""⟩ (by simp)
  rw [hfault] at htokens
  cases htokens

theorem prints_nothing_before_unclosed_string :
    (run (pairFolder ";" "\"") .empty ["tokens", "d"]).exitCode ≠ 0 ∧
      (run (pairFolder ";" "\"") .empty ["tokens", "d"]).output = "" := by
  have hexit := exitCode_pairFolder ";"
  refine ⟨hexit, (output_eq_empty_iff _ _ _ hexit).2 fun reader sources hlists => ?_⟩
  obtain ⟨reader', hlists'⟩ := lists_pairFolder ";" "\""
  obtain ⟨rfl, rfl⟩ := hlists.eq hlists'
  obtain ⟨fault, hfault⟩ := refuses_unclosed_string reader "d/b.clj"
  have hcomment : reader.tokens ⟨"d/a.clj", ";"⟩ = .ok [] := by
    rw [tokens_eq_ok_iff]
    exact Clojure.eq_ok_of_toOption (by decide)
  rw [accepted_cons_of_ok hcomment, accepted_cons_of_error hfault]
  simpa using hcomment

/-- The tokens of the first source stay printed when the second one is refused. -/
theorem prints_tokens_before_unclosed_string :
    (run (pairFolder "a" "\"") .empty ["tokens", "d"]).exitCode ≠ 0 ∧
      (run (pairFolder "a" "\"") .empty ["tokens", "d"]).output ≠ "" := by
  refine ⟨exitCode_pairFolder "a", fun hempty => ?_⟩
  obtain ⟨reader, hlists⟩ := lists_pairFolder "a" "\""
  rw [hlists.run_eq, output_listTokens, String.empty_append, join_eq_empty_iff] at hempty
  obtain ⟨tokens, htokens⟩ : ∃ tokens, reader.tokens ⟨"d/a.clj", "a"⟩ = .ok tokens := by
    simp only [tokens_eq_ok_iff]
    exact Clojure.exists_eq_ok (by decide)
  have haccepted : ⟨"d/a.clj", "a"⟩ ∈ accepted reader [⟨"d/a.clj", "a"⟩, ⟨"d/b.clj", "\""⟩] := by
    rw [accepted_cons_of_ok htokens]
    exact List.mem_cons_self ..
  have hnone := (listingOf_eq_empty_iff haccepted).1 (hempty _ (List.mem_map_of_mem haccepted))
  have hone : (Clojure.lex "a").toOption.map List.length = some 1 := by decide
  rw [tokens_eq_ok_iff] at hnone
  rw [hnone] at hone
  cases hone

end HiccupReader.CommandLine
