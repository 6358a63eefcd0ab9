import NeutronLang.Proofs.Documents
import NeutronLang.Proofs.RenderedStatements
import NeutronLang.Proofs.Words

/-!
# Reading undoes rendering

The text of a rendered program is read back as the tree that was rendered, but for spans, and
without a syntax error. The three stages are put together here: its words are tokens
(`exists_tokens_of_spaced`), its statements are read one after the other (`statements_read`), and a
document is read from its tokens (`exists_reading`).
-/

namespace NeutronLang.Rendering

open Grammar Lexicon

/-- `readDocument` reads the text of a program tree as that tree but for spans, without a syntax
error. -/
theorem exists_reading_of_spaced {tree : Node} (h : IsProgram tree) {words : List Word}
    {text : List Char} (hwords : Chosen (places tree) words) (htext : Spaced words text) :
    ∃ reading, readDocument text = .ok reading ∧
      reading.program.withoutSpans = tree.withoutSpans ∧ reading.errors = [] := by
  obtain ⟨hstatements⟩ := h
  rename_i span statements
  unfold places at hwords
  have hlexical : Lexical (statementPlaces statements) :=
    lexical_statementPlaces fun statement hstatement => (hstatements statement hstatement).lexical
  -- First stage: the words of the text are its tokens.
  obtain ⟨tokens, htokens, rfl⟩ := exists_tokens_of_spaced htext (hwords.isToken hlexical)
  have hread : (Cursor.ofTokens tokens).Reads tokens ⟨tokens.reverse, []⟩ :=
    ⟨(List.append_nil tokens).symm, (List.append_nil _).symm⟩
  -- Second stage: the tokens are read as the statements, up to the last of them.
  have hgives : ∃ trees, (Grammar.statements none
      (statementWithin (Text.lineEnd text) tokens.length) tokens.length).Gives
        (Cursor.ofTokens tokens) trees ⟨tokens.reverse, []⟩ ∧
      trees.map Node.withoutSpans = statements.map Node.withoutSpans :=
    statements_read (fun statement hstatement => (hstatements statement hstatement).read) hwords
      (spelled_of_tokenize htokens) (by simp) hread (Nat.le_refl _) (Nat.le_refl _) rfl
      (by simp [ChainEnds])
  obtain ⟨trees, ⟨hvalue, herrors⟩, hsame⟩ := hgives
  -- Third stage: the document consists of these statements.
  obtain ⟨reading, hreading, hprogram, hevents⟩ := exists_reading htokens
  refine ⟨reading, hreading, ?_, ?_⟩
  · rw [hprogram, program]
    simp only [hvalue, herrors]
    unfold Node.withoutSpans at hsame ⊢
    simp only [Node.mapSpans, Node.mapSpansOfAll_eq_map, hsame]
  · unfold Reading.errors
    rw [hevents]
    exact herrors

/-- Reading undoes rendering: every program tree (`IsProgram`) can be rendered, and however it is,
with any choice at each of its `places` and any blank characters around the words, the text is read
as that tree but for spans and without a syntax error. -/
theorem readDocument_rendered {tree : Node} (h : IsProgram tree) :
    (∃ words text, Chosen (places tree) words ∧ Spaced words text) ∧
      ∀ words text, Chosen (places tree) words → Spaced words text →
        ∃ reading, readDocument text = .ok reading ∧
          reading.program.withoutSpans = tree.withoutSpans ∧ reading.errors = [] := by
  constructor
  -- There is a rendering: any choice at each place, with one blank after each word.
  · obtain ⟨words, hwords⟩ := exists_chosen (places tree)
    obtain ⟨text, htext⟩ := exists_spaced words
    exact ⟨words, text, hwords, htext⟩
  · intro words text hwords htext
    exact exists_reading_of_spaced h hwords htext

/-- `Chosen` holds with one word for a place. -/
theorem Chosen.single {place : Place} {places : List Place} {word : Word} {words : List Word}
    (hword : [word] ∈ place.choices) (h : Chosen places words) :
    Chosen (place :: places) (word :: words) := .cons hword h

/-- The tree of `return a && b ;` is read back from that text, in which `and` is spelled in
signs. -/
theorem readDocument_rendered_return :
    let tree := Node.program (.point 0) [.returnStatement (.point 0)
      (.logical (.point 0) "and" (.identifier (.point 0) "a") (.identifier (.point 0) "b"))] []
    IsProgram tree ∧ ∃ reading, readDocument "return a && b ;".toList = .ok reading ∧
      reading.program.withoutSpans = tree.withoutSpans ∧ reading.errors = [] := by
  intro tree
  have hname (name : String) (h : name ∈ ["a", "b"]) : IsName name := by
    rcases List.mem_cons.mp h with rfl | h
    · exact ⟨by decide, 'a', [], rfl, by decide, by simp⟩
    · obtain rfl := List.mem_singleton.mp h
      exact ⟨by decide, 'b', [], rfl, by decide, by simp⟩
  have htree : IsProgram tree := .mk fun statement hstatement => by
    obtain rfl := List.mem_singleton.mp hstatement
    exact .returns (.inr (.logical (by decide) (.name (.inl (hname "a" (by decide))))
      (.name (.inl (hname "b" (by decide))))))
  have hwords : Chosen (places tree) [⟨.keyword, "return"⟩, ⟨.identifier, "a"⟩, ⟨.operator, "and"⟩,
      ⟨.identifier, "b"⟩, ⟨.symbol, ";"⟩] :=
    .single (by decide) (.single (by decide) (.single (by decide) (.single (by decide)
      (.single (by decide) .nil))))
  have hspaced : Spaced [⟨.keyword, "return"⟩, ⟨.identifier, "a"⟩, ⟨.operator, "and"⟩,
      ⟨.identifier, "b"⟩, ⟨.symbol, ";"⟩] "return a && b ;".toList :=
    .word (by decide) (.word (by decide) (.word (by decide) (.word (by decide) .last)))
  exact ⟨htree, (readDocument_rendered htree).2 _ _ hwords hspaced⟩

end NeutronLang.Rendering
