import Mathlib.Data.List.Basic
import ReplyCache.Yaml.Scalar

namespace ReplyCache

namespace Yaml

def visible (cs : List Char) : List Char := cs.filter (!isSpace ·)

@[simp] theorem visible_append (cs ds : List Char) :
    visible (cs ++ ds) = visible cs ++ visible ds := List.filter_append cs ds

theorem visible_cons_of_isSpace {x : Char} (h : isSpace x = true) (cs : List Char) :
    visible (x :: cs) = visible cs := List.filter_cons_of_neg (by simp [h])

theorem isSpace_of_isBlank {x : Char} (h : isBlank x = true) : isSpace x = true := by
  simp [isSpace, h]

theorem isSpace_of_isBreak {x : Char} (h : isBreak x = true) : isSpace x = true := by
  simp [isSpace, h]

def EndsVisible (cs : List Char) : Prop := ∀ x ∈ cs.getLast?, isSpace x = false

namespace Cursor

theorem visible_skipLine (c : Cursor) : visible c.skipLine.rest = visible c.rest := by
  rw [skipLine]
  split
  · next rest hrest =>
    rw [hrest, visible_cons_of_isSpace (by decide), visible_cons_of_isSpace (by decide)]
  · next x rest _ hrest =>
    split
    · next hbreak => rw [hrest, visible_cons_of_isSpace (isSpace_of_isBreak hbreak)]
    · rfl
  · rfl

theorem visible_lineBreak (c : Cursor) : visible c.lineBreak = [] := by
  rw [lineBreak]
  split
  · split
    · next hseparator =>
      refine visible_cons_of_isSpace ?_ []
      rcases Bool.or_eq_true _ _ ▸ hseparator with hx | hx <;> rw [of_decide_eq_true hx] <;> decide
    · split <;> rfl
  · rfl

end Cursor

namespace Gap

structure Invisible (g : Gap) : Prop where
  blanks : visible g.blanks = []
  firstBreak : visible g.firstBreak = []
  otherBreaks : visible g.otherBreaks = []

theorem invisible_empty : Invisible {} := ⟨rfl, rfl, rfl⟩

theorem Invisible.text {g : Gap} (h : g.Invisible) : visible g.text = [] := by
  rw [Gap.text, fold]
  split
  · split
    · split
      · rfl
      · exact h.otherBreaks
    · rw [visible_append, h.firstBreak, h.otherBreaks, List.append_nil]
  · exact h.blanks

theorem visible_read? {indent : Int} {fuel : Nat} {g g' : Gap} {c c' : Cursor}
    (h : read? indent fuel g c = some (g', c')) (hg : g.Invisible) :
    visible c'.rest = visible c.rest ∧ g'.Invisible := by
  induction fuel generalizing g c with
  | zero => cases h
  | succ fuel ih =>
      rw [read?] at h
      split at h
      · obtain ⟨rfl, rfl⟩ := Prod.mk.inj (Option.some.inj h)
        exact ⟨rfl, hg⟩
      · next x hnext =>
        have hrest : visible c.rest = visible (x :: c.rest.drop 1) := by
          rw [Cursor.next?, List.head?_eq_some_iff] at hnext
          obtain ⟨rest, hrest⟩ := hnext
          rw [hrest]
          rfl
        split at h
        · next hblank =>
          have hskip : visible c.skip.rest = visible c.rest := by
            rw [hrest, visible_cons_of_isSpace (isSpace_of_isBlank hblank)]
            rfl
          split at h
          · split at h
            · cases h
            · rw [← hskip]
              exact ih h hg
          · rw [← hskip]
            refine ih h ⟨?_, hg.firstBreak, hg.otherBreaks⟩
            rw [visible_append, hg.blanks, visible_cons_of_isSpace (isSpace_of_isBlank hblank)]
            rfl
        · split at h
          · rw [← c.visible_skipLine]
            split at h
            · refine ih h ⟨hg.blanks, hg.firstBreak, ?_⟩
              rw [visible_append, hg.otherBreaks, c.visible_lineBreak, List.append_nil]
            · exact ih h ⟨rfl, c.visible_lineBreak, rfl⟩
          · obtain ⟨rfl, rfl⟩ := Prod.mk.inj (Option.some.inj h)
            exact ⟨rfl, hg⟩

end Gap

namespace Plain

variable {inFlow : Bool} {indent : Int} {fuel : Nat} {pieces : List (List Char)} {g : Gap}
variable {c d : Cursor} {text word : List Char} {ends : Bool}

theorem readWord?_spec {cs : List Char} (h : readWord? inFlow cs = some word) :
    word <+: cs ∧ ∀ x ∈ word, isSpace x = false := by
  induction cs generalizing word with
  | nil =>
      obtain rfl := Option.some.inj h
      simp
  | cons y cs ih =>
      have hnil : [] <+: y :: cs ∧ ∀ x ∈ ([] : List Char), isSpace x = false := by simp
      rw [readWord?] at h
      split at h
      · obtain rfl := Option.some.inj h
        exact hnil
      · next hspace =>
        split at h
        · cases h
        · split at h
          · obtain rfl := Option.some.inj h
            exact hnil
          · obtain ⟨word, hword, rfl⟩ := Option.map_eq_some_iff.1 h
            obtain ⟨hinit, hvisible⟩ := ih hword
            refine ⟨(List.prefix_cons_inj y).2 hinit, ?_⟩
            simpa using ⟨Bool.eq_false_iff.2 hspace, hvisible⟩

theorem head?_of_readWord? {x : Char} {rest : List Char} (hspace : isSpace x = false)
    (hcolon : x ≠ ':') (hflow : isFlowMark x = false)
    (h : readWord? inFlow (x :: rest) = some word) : word.head? = some x := by
  simp only [readWord?, hspace, hcolon, hflow] at h
  obtain ⟨word, -, rfl⟩ : ∃ w, readWord? inFlow rest = some w ∧ x :: w = word := by simpa using h
  rfl

def addWord (pieces : List (List Char)) (g : Gap) (word : List Char) : List (List Char) :=
  if word.isEmpty then pieces else word :: g.text :: pieces

/-- What is to be read is taken up to a word, then up to the end of a gap, and so on. -/
theorem read?_cases (h : read? inFlow indent (fuel + 1) pieces g c = some (text, ends, d)) :
    (c.isAtDocumentMark || c.isAt '#') = true ∧ text = join pieces ∧ d = c ∨
    (c.isAtDocumentMark || c.isAt '#') = false ∧ ∃ word, readWord? inFlow c.rest = some word ∧
      (text = join (addWord pieces g word) ∧ d = c.skip word.length ∨
        ∃ g' c', Gap.read? indent (fuel + 1) (if word.isEmpty then g else {})
            (c.skip word.length) = some (g', c') ∧
          (text = join (addWord pieces g word) ∧ d = c' ∨
            read? inFlow indent fuel (addWord pieces g word) g' c' = some (text, ends, d))) := by
  rw [read?] at h
  split at h
  · next hmark =>
    obtain ⟨rfl, -, rfl⟩ : _ ∧ _ ∧ _ := by simpa using h
    exact .inl ⟨hmark, rfl, rfl⟩
  · next hmark =>
    obtain ⟨word, hword, h⟩ := Option.bind_eq_some_iff.1 h
    refine .inr ⟨Bool.eq_false_iff.2 hmark, word, hword, ?_⟩
    have hpieces : (if word.isEmpty then pieces else word :: g.text :: pieces) =
      addWord pieces g word := rfl
    dsimp only at h
    rw [hpieces] at h
    generalize (if word.isEmpty then g else {} : Gap) = gap at h ⊢
    split at h
    · obtain ⟨rfl, -, rfl⟩ : _ ∧ _ ∧ _ := by simpa using h
      exact .inl ⟨rfl, rfl⟩
    · split at h
      · obtain ⟨⟨g', c'⟩, hgap, h⟩ := Option.bind_eq_some_iff.1 h
        refine .inr ⟨g', c', hgap, ?_⟩
        split at h
        · obtain ⟨rfl, -, rfl⟩ : _ ∧ _ ∧ _ := by simpa using h
          exact .inl ⟨rfl, rfl⟩
        · exact .inr h
      · obtain ⟨rfl, -, rfl⟩ : _ ∧ _ ∧ _ := by simpa using h
        exact .inl ⟨rfl, rfl⟩

/-- From `before` and the text `rest` to `text` and the rest `after` nothing visible is lost. -/
structure Keeps (before rest text after : List Char) : Prop where
  visible : visible text ++ visible after = visible before ++ visible rest
  grows : before <+: text
  ends : EndsVisible before → EndsVisible text

theorem Keeps.refl (before rest : List Char) : Keeps before rest before rest :=
  ⟨rfl, List.prefix_refl _, id⟩

theorem Keeps.trans {b r b' r' b'' r'' : List Char} (h : Keeps b r b' r')
    (h' : Keeps b' r' b'' r'') : Keeps b r b'' r'' :=
  ⟨h'.visible.trans h.visible, h.grows.trans h'.grows, h'.ends ∘ h.ends⟩

theorem Keeps.of_visible {before rest text after after' : List Char}
    (h : Keeps before rest text after) (hafter : Yaml.visible after' = Yaml.visible after) :
    Keeps before rest text after' := ⟨hafter ▸ h.visible, h.grows, h.ends⟩

theorem keeps_addWord (hword : readWord? inFlow c.rest = some word) (hg : g.Invisible) :
    Keeps (join pieces) c.rest (join (addWord pieces g word)) (c.skip word.length).rest := by
  obtain ⟨⟨rest, hrest⟩, hvisible⟩ := readWord?_spec hword
  have hskip : (c.skip word.length).rest = rest := by
    rw [Cursor.skip, ← hrest, List.drop_left]
  rw [hskip, ← hrest, addWord]
  split
  · next hempty =>
    rw [List.isEmpty_iff.1 hempty]
    exact Keeps.refl _ _
  · next hempty =>
    have hjoin : join (word :: g.text :: pieces) = join pieces ++ (g.text ++ word) := by
      simp [join]
    rw [hjoin]
    refine ⟨?_, List.prefix_append _ _, fun _ x hx => ?_⟩
    · simp only [visible_append, hg.text, List.nil_append, List.append_assoc]
    · have hne : word ≠ [] := fun hnil => hempty (List.isEmpty_iff.2 hnil)
      rw [← List.append_assoc, List.getLast?_append_of_ne_nil _ hne] at hx
      exact hvisible x (List.mem_of_getLast? hx)

theorem keeps_of_read? (h : read? inFlow indent fuel pieces g c = some (text, ends, d))
    (hg : g.Invisible) : Keeps (join pieces) c.rest text d.rest := by
  induction fuel generalizing pieces g c with
  | zero => cases h
  | succ fuel ih =>
      rcases read?_cases h with ⟨-, rfl, rfl⟩ | ⟨-, word, hword, hnext⟩
      · exact Keeps.refl _ _
      have hadd : Keeps (join pieces) c.rest (join (addWord pieces g word))
          (c.skip word.length).rest := keeps_addWord hword hg
      rcases hnext with ⟨rfl, rfl⟩ | ⟨g', c', hgap, hnext⟩
      · exact hadd
      have hblank : (if word.isEmpty then g else {}).Invisible := by
        split
        · exact hg
        · exact Gap.invisible_empty
      obtain ⟨hrest, hg'⟩ := Gap.visible_read? hgap hblank
      rcases hnext with ⟨rfl, rfl⟩ | hread
      · exact hadd.of_visible hrest
      · exact (hadd.of_visible hrest).trans (ih hread hg')

theorem head?_of_read? {x : Char} (h : read? inFlow indent fuel [] {} c = some (text, ends, d))
    (hmark : (c.isAtDocumentMark || c.isAt '#') = false)
    (hword : ∀ word, readWord? inFlow c.rest = some word → word.head? = some x) :
    text.head? = some x := by
  cases fuel with
  | zero => cases h
  | succ fuel =>
      rcases read?_cases h with ⟨hmark', -, -⟩ | ⟨-, word, hread, hnext⟩
      · rw [hmark] at hmark'
        cases hmark'
      have hhead := hword word hread
      have hjoin : join (addWord [] {} word) = word := by
        cases word with
        | nil => cases hhead
        | cons y ys => simp [addWord, join, Gap.text]
      rcases hnext with ⟨rfl, -⟩ | ⟨g', c', hgap, hnext⟩
      · rw [hjoin, hhead]
      rcases hnext with ⟨rfl, -⟩ | hnext
      · rw [hjoin, hhead]
      · have hblank : (if word.isEmpty then {} else {} : Gap).Invisible := by
          rw [ite_self]
          exact Gap.invisible_empty
        have hgrows := (keeps_of_read? hnext (Gap.visible_read? hgap hblank).2).grows
        rw [hjoin] at hgrows
        obtain ⟨more, rfl⟩ := hgrows
        rw [List.head?_append, hhead]
        rfl

end Plain

end Yaml

end ReplyCache
