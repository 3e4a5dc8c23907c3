import ReplyCache.Proofs.Yaml.Lexer
import ReplyCache.Proofs.Yaml.Plain
import ReplyCache.Proofs.Yaml.Resolve

namespace ReplyCache

namespace Yaml

/-- White space in Unicode that is none in YAML, where it may start a plain scalar. -/
def isForeignBlank (c : Char) : Bool := Text.isBlank c && !isSpace c

def isOpening (c : Char) : Bool := c = '[' || c = '{' || isForeignBlank c

theorem isOpening_iff {c : Char} :
    isOpening c = true ↔ c = '[' ∨ c = '{' ∨ isForeignBlank c = true := by
  simp [isOpening, or_assoc]

theorem isSpace_of_isOpening {c : Char} (h : isOpening c = true) : isSpace c = false := by
  rcases isOpening_iff.1 h with rfl | rfl | hforeign
  · decide
  · decide
  · simpa using (Bool.and_eq_true_iff.1 hforeign).2

theorem textBlank_of_isSpace {c : Char} (h : isSpace c = true) : Text.isBlank c = true := by
  simp only [isSpace, isBlank, isBreak, Bool.or_eq_true, decide_eq_true_eq] at h
  rcases h with (rfl | rfl) | (((rfl | rfl) | rfl) | rfl) | rfl <;> decide

theorem head?_of_isPrefix {α : Type} {as bs : List α} (h : as <+: bs) {x : α}
    (hx : as.head? = some x) : bs.head? = some x := by
  obtain ⟨cs, rfl⟩ := h
  rw [List.head?_append, hx]
  rfl

/-- Blanks and breaks up to `u`, which is empty or starts with an opening character. -/
inductive Leads (u : List Char) : List Char → Prop
  | here : (∀ x ∈ u.head?, isOpening x = true) → Leads u u
  | space {x : Char} {cs : List Char} : isSpace x = true → Leads u cs → Leads u (x :: cs)

namespace Leads

variable {u cs : List Char} {c : Cursor}

theorem head?_ne (h : Leads u cs) {y : Char} (hspace : isSpace y = false)
    (hopening : isOpening y = false) : cs.head? ≠ some y := by
  intro hhead
  cases h with
  | here hu =>
      rw [hu y hhead] at hopening
      cases hopening
  | space hx =>
      obtain rfl := Option.some.inj hhead
      rw [hx] at hspace
      cases hspace

theorem isAt (h : Leads u c.rest) {y : Char} (hspace : isSpace y = false)
    (hopening : isOpening y = false) : c.isAt y = false :=
  beq_eq_false_iff_ne.2 (h.head?_ne hspace hopening)

theorem drop_takeWhile (h : Leads u cs) {p : Char → Bool}
    (hp : ∀ y, p y = true → isSpace y = true) : Leads u (cs.drop (cs.takeWhile p).length) := by
  induction h with
  | here hu =>
      have hnone : u.takeWhile p = [] := by
        cases u with
        | nil => rfl
        | cons x xs =>
            refine List.takeWhile_cons_of_neg fun hx => ?_
            have hspace := isSpace_of_isOpening (hu x rfl)
            rw [hp x hx] at hspace
            cases hspace
      rw [hnone]
      exact .here hu
  | @space x cs hx hcs ih =>
      cases hpx : p x with
      | true =>
          rw [List.takeWhile_cons_of_pos hpx]
          exact ih
      | false =>
          rw [List.takeWhile_cons_of_neg (by simp [hpx])]
          exact hcs.space hx

theorem tail {x : Char} (h : Leads u (x :: cs)) (hx : isSpace x = true) : Leads u cs := by
  cases h with
  | here hu =>
      rw [isSpace_of_isOpening (hu x rfl)] at hx
      cases hx
  | space _ hcs => exact hcs

theorem skipLine (h : Leads u c.rest) : Leads u c.skipLine.rest := by
  rw [Cursor.skipLine]
  split
  · next rest hrest =>
    rw [hrest] at h
    exact (h.tail (by decide)).tail (by decide)
  · next x rest _ hrest =>
    split
    · next hbreak =>
      rw [hrest] at h
      exact h.tail (isSpace_of_isBreak hbreak)
    · exact h
  · exact h

theorem take (h : Leads u cs) (n : Nat) : ∃ v, v <+: u ∧ Leads v (cs.take n) := by
  induction h generalizing n with
  | here hu =>
      refine ⟨u.take n, List.take_prefix n u, .here fun x hx => hu x ?_⟩
      exact head?_of_isPrefix (List.take_prefix n u) hx
  | space hx _ ih =>
      cases n with
      | zero => exact ⟨[], List.nil_prefix, .here nofun⟩
      | succ n =>
          obtain ⟨v, hv, hcs⟩ := ih n
          exact ⟨v, hv, .space hx hcs⟩

theorem dropWhile (h : ∀ x ∈ (cs.dropWhile isSpace).head?, isOpening x = true) :
    Leads (cs.dropWhile isSpace) cs := by
  induction cs with
  | nil => exact .here h
  | cons x xs ih =>
      cases hx : isSpace x with
      | true =>
          rw [List.dropWhile_cons_of_pos hx] at h ⊢
          exact .space hx (ih h)
      | false =>
          rw [List.dropWhile_cons_of_neg (by simp [hx])] at h ⊢
          exact .here h

end Leads

/-- A text `text` that a plain scalar can have which starts where `cs` does, at a foreign blank. -/
structure Folded (cs text : List Char) : Prop where
  foreign : ∃ x, isForeignBlank x = true ∧ cs.head? = some x ∧ text.head? = some x
  ends : EndsVisible text
  visible : visible text <+: visible cs

/-- The tokens that can come first if the scalar, the list or the record that the text starts with
starts at `cs`. -/
inductive Token.Opens (cs : List Char) : Token → Prop
  | sequence : cs.head? = some '[' → Opens cs .flowSequenceStart
  | mapping : cs.head? = some '{' → Opens cs .flowMappingStart
  | scalar {text : List Char} : Folded cs text → Opens cs (.scalar .plain (String.ofList text))
  | key : Opens cs .key
  | block : Opens cs .blockMappingStart

namespace Lexer

variable {cs : List Char} {l m : Lexer} {t : Token} {fuel : Nat}

def Opens (cs : List Char) (l : Lexer) : Prop := ∃ t, l.tokens.getLast? = some t ∧ t.Opens cs

theorem Opens.of_suffix (h : l.Opens cs) (hsuffix : l.tokens <:+ m.tokens) : m.Opens cs := by
  obtain ⟨t, hlast, ht⟩ := h
  obtain ⟨more, hmore⟩ := hsuffix
  exact ⟨t, by rw [← hmore, List.getLast?_append, hlast]; rfl, ht⟩

theorem Opens.insert (h : l.Opens cs) (number : Nat) (ht : t.Opens cs) :
    (l.insert number t).Opens cs := by
  obtain ⟨first, hlast, hfirst⟩ := h
  by_cases hall : l.tokens.length ≤ l.count - number
  · refine ⟨t, ?_, ht⟩
    rw [Lexer.insert, List.drop_eq_nil_of_le hall, List.getLast?_append]
    rfl
  · refine ⟨first, ?_, hfirst⟩
    rw [Lexer.insert, List.getLast?_append, List.getLast?_cons, List.getLast?_drop, if_neg hall,
      hlast]
    rfl

theorem Opens.roll (h : l.Opens cs) (column : Nat) (number : Option Nat) (ht : t.Opens cs) :
    (l.roll column number t).Opens cs := by
  rw [Lexer.roll]
  split
  · exact h
  · cases number with
    | none => exact h.of_suffix (List.suffix_cons t _)
    | some n => exact Opens.insert (l := { l with indent := column, outerIndents := _ }) h n ht

theorem Opens.value? (h : l.Opens cs) (hm : l.value? = some m) : m.Opens cs := by
  rw [Lexer.value?] at hm
  split at hm
  · next k _ =>
    obtain rfl := Option.some.inj hm
    have hmarked := (h.insert k.number .key).roll k.column (some k.number) .block
    exact hmarked.of_suffix (List.suffix_cons _ _)
  · obtain ⟨l', hroll, hm⟩ := Option.bind_eq_some_iff.1 hm
    obtain rfl := Option.some.inj hm
    exact h.of_suffix ((grows_rollHere l' hroll).trans (List.suffix_cons _ _))

theorem Opens.token? (h : l.Opens cs) : ∀ m ∈ l.token? fuel, m.Opens cs := by
  intro m hm
  rcases l.token?_cases with hvalue | hgrows
  · rw [hvalue] at hm
    exact h.value? hm
  · exact h.of_suffix (hgrows m hm)

end Lexer

section Leads

variable {u : List Char} {l : Lexer}

theorem Leads.passMark (h : Leads u l.cursor.rest) : Leads u l.passMark.cursor.rest := by
  rw [Lexer.passMark, h.isAt (by decide) (by decide), Bool.and_false]
  exact h

theorem Leads.passBlanks (h : Leads u l.cursor.rest) : Leads u l.passBlanks.rest := by
  have hskip : Leads u (l.cursor.skipWhile
      fun x => x = ' ' || ((l.inFlow || !l.mayStartKey) && x = '\t')).rest :=
    h.drop_takeWhile (by simp +contextual [isSpace, isBlank, or_imp])
  rw [Lexer.passBlanks]
  split
  · next hcomment =>
    rw [hskip.isAt (by decide) (by decide)] at hcomment
    cases hcomment
  · exact hskip

theorem Leads.skipSpace (h : Leads u l.cursor.rest) (fuel : Nat) :
    Leads u (l.skipSpace fuel).cursor.rest := by
  induction fuel generalizing l with
  | zero => exact h
  | succ fuel ih =>
      rw [Lexer.skipSpace_succ]
      split
      · exact h.passMark.passBlanks
      · split
        · exact ih h.passMark.passBlanks.skipLine
        · exact h.passMark.passBlanks

end Leads

theorem Cursor.isAtMark_eq_false {c : Cursor} {x mark : Char} {rest : List Char}
    (hrest : c.rest = x :: rest) (hne : x ≠ mark) : c.isAtMark mark = false := by
  rw [isAtMark, hrest]
  rcases rest with _ | ⟨y, _ | ⟨z, rest⟩⟩ <;> simp [hne]

namespace Lexer

variable {l m : Lexer} {x : Char} {rest u : List Char} {fuel : Nat}

theorem token?_bracket (hrest : l.cursor.rest = '[' :: rest) :
    l.token? fuel = l.flowStart? .flowSequenceStart := by
  have hmark {mark : Char} (hne : '[' ≠ mark) := Cursor.isAtMark_eq_false hrest hne
  simp [token?, hrest, hmark]

theorem token?_brace (hrest : l.cursor.rest = '{' :: rest) :
    l.token? fuel = l.flowStart? .flowMappingStart := by
  have hmark {mark : Char} (hne : '{' ≠ mark) := Cursor.isAtMark_eq_false hrest hne
  simp [token?, hrest, hmark]

theorem token?_of_isBlank (hrest : l.cursor.rest = x :: rest) (hx : Text.isBlank x = true) :
    l.token? fuel = if isSpace x then none else l.plain? fuel := by
  have hne (y : Char) (hy : Text.isBlank y = false) : x ≠ y := Text.ne_of_isBlank hx hy
  have hindicator : isIndicator x = false := by
    refine Bool.eq_false_iff.2 fun hmem => ?_
    have hnone : "-?:,[]\x7b\x7d#&*!|>'\"%@\x60".toList.all (!Text.isBlank ·) = true := by decide
    simpa [hx] using List.all_eq_true.1 hnone x (List.contains_iff_mem.1 hmem)
  have hstart : startsPlain l.inFlow x rest = !isSpace x := by
    simp [startsPlain, hindicator, hne '-' (by decide), hne '?' (by decide), hne ':' (by decide)]
  have hmark {mark : Char} (hne : x ≠ mark) := Cursor.isAtMark_eq_false hrest hne
  simp only [token?, hrest, hmark (hne '-' (by decide)), hmark (hne '.' (by decide)), hstart]
  simp [hne '%' (by decide), hne '[' (by decide), hne '{' (by decide), hne ']' (by decide),
    hne '}' (by decide), hne ',' (by decide), hne '-' (by decide), hne '?' (by decide),
    hne ':' (by decide), hne '*' (by decide), hne '&' (by decide), hne '!' (by decide),
    hne '|' (by decide), hne '>' (by decide), hne '\'' (by decide), hne '"' (by decide)]
  cases isSpace x <;> rfl

theorem opens_of_plain? (hrest : l.cursor.rest = x :: rest) (hempty : l.tokens = [])
    (hforeign : isForeignBlank x = true) (hm : l.plain? fuel = some m) : m.Opens (x :: rest) := by
  obtain ⟨text, ends, c, hread, htokens⟩ := plain?_eq_some hm
  have hne (y : Char) (hy : Text.isBlank y = false) : x ≠ y :=
    Text.ne_of_isBlank (Bool.and_eq_true_iff.1 hforeign).1 hy
  have hspace : isSpace x = false := isSpace_of_isOpening (isOpening_iff.2 (.inr (.inr hforeign)))
  have hmark : (l.cursor.isAtDocumentMark || l.cursor.isAt '#') = false := by
    rw [Cursor.isAtDocumentMark, Cursor.isAtMark_eq_false hrest (hne '-' (by decide)),
      Cursor.isAtMark_eq_false hrest (hne '.' (by decide)), Cursor.isAt, hrest]
    simpa using hne '#' (by decide)
  have hflow : Plain.isFlowMark x = false := by
    simp [Plain.isFlowMark, hne ',' (by decide), hne '[' (by decide), hne ']' (by decide),
      hne '{' (by decide), hne '}' (by decide)]
  have hhead : text.head? = some x := by
    refine Plain.head?_of_read? hread hmark fun word hword => ?_
    rw [hrest] at hword
    exact Plain.head?_of_readWord? hspace (hne ':' (by decide)) hflow hword
  have hkeeps := Plain.keeps_of_read? hread Gap.invisible_empty
  rw [hrest] at hkeeps
  refine ⟨.scalar .plain (String.ofList text), by rw [htokens, hempty]; rfl, ?_⟩
  exact .scalar ⟨⟨x, hforeign, rfl, hhead⟩, hkeeps.ends nofun, ⟨_, hkeeps.visible⟩⟩

theorem opens_of_token? (hrest : l.cursor.rest = x :: rest) (hempty : l.tokens = [])
    (hx : isOpening x = true) : ∀ m ∈ l.token? fuel, m.Opens (x :: rest) := by
  intro m hm
  rcases isOpening_iff.1 hx with rfl | rfl | hforeign
  · rw [token?_bracket hrest] at hm
    exact ⟨_, by rw [tokens_of_flowStart hm, hempty]; rfl, .sequence rfl⟩
  · rw [token?_brace hrest] at hm
    exact ⟨_, by rw [tokens_of_flowStart hm, hempty]; rfl, .mapping rfl⟩
  · rw [token?_of_isBlank hrest (Bool.and_eq_true_iff.1 hforeign).1,
      if_neg (by rw [isSpace_of_isOpening hx]; decide)] at hm
    exact opens_of_plain? hrest hempty hforeign hm

theorem Opens.step? (h : l.Opens u) : ∀ m ∈ l.step? fuel, m.Opens u := by
  intro m hm
  obtain ⟨-, htoken⟩ := step?_eq_some hm
  have hskipped : (l.skipSpace fuel).Opens u := by
    obtain ⟨first, hlast, hfirst⟩ := h
    exact ⟨first, by rw [(skipSpace_keeps fuel l).1, hlast], hfirst⟩
  exact (hskipped.of_suffix (suffix_unroll _ _)).token? m htoken

theorem opens_of_step? (hlead : Leads u l.cursor.rest) (hempty : l.tokens = [])
    (houtermost : l.outerIndents = []) (hcut : u = [] → l.isCut = true) :
    ∀ m ∈ l.step? fuel, m.Opens u := by
  intro m hm
  obtain ⟨hsees, htoken⟩ := step?_eq_some hm
  obtain ⟨htokens, houter, hisCut⟩ := skipSpace_keeps fuel l
  have hskipped := hlead.skipSpace fuel
  generalize l.skipSpace fuel = l' at *
  rw [unroll_of_outermost (houter.trans houtermost)] at htoken
  generalize hrest : l'.cursor.rest = cs at hskipped
  cases hskipped with
  | here hu =>
      cases u with
      | nil =>
          rw [sees, hisCut, hcut rfl, hrest] at hsees
          cases hsees
      | cons x rest => exact opens_of_token? hrest (htokens.trans hempty) (hu x rfl) m htoken
  | space hx =>
      rw [token?_of_isBlank hrest (textBlank_of_isSpace hx), if_pos hx] at htoken
      cases htoken

theorem Opens.head?_reverse_drop (h : l.Opens u) (n : Nat) :
    ∀ t ∈ (l.tokens.drop n).reverse.head?, t.Opens u := by
  obtain ⟨first, hlast, hfirst⟩ := h
  intro t ht
  rw [List.head?_reverse, List.getLast?_drop, hlast] at ht
  split at ht
  · cases ht
  · obtain rfl := Option.some.inj ht
    exact hfirst

theorem Opens.head?_run (h : l.Opens u) (width : Nat) :
    ∀ t ∈ (run width fuel l).head?, t.Opens u := by
  induction fuel generalizing l with
  | zero => exact h.head?_reverse_drop 0
  | succ fuel ih =>
      rw [run]
      split
      · exact h.head?_reverse_drop _
      · next m hm =>
        have hopens := h.step? m hm
        split
        · exact hopens.head?_reverse_drop 0
        · exact ih hopens

theorem head?_run (hempty : l.tokens = []) (width : Nat) (h : ∀ m ∈ l.step? width, m.Opens u) :
    ∀ t ∈ (run width fuel l).head?, t.Opens u := by
  cases fuel with
  | zero =>
      rw [run, hempty]
      nofun
  | succ fuel =>
      rw [run]
      split
      · rw [hempty, List.drop_nil]
        nofun
      · next m hm =>
        split
        · exact (h m hm).head?_reverse_drop 0
        · exact (h m hm).head?_run width

end Lexer

namespace Token

theorem Opens.of_isPrefix {t : Token} {u v : List Char} (h : t.Opens v) (hinit : v <+: u) :
    t.Opens u := by
  cases h with
  | sequence hhead => exact .sequence (head?_of_isPrefix hinit hhead)
  | mapping hhead => exact .mapping (head?_of_isPrefix hinit hhead)
  | scalar hfolded =>
      obtain ⟨x, hforeign, hhead, htext⟩ := hfolded.foreign
      refine .scalar ⟨⟨x, hforeign, head?_of_isPrefix hinit hhead, htext⟩, hfolded.ends, ?_⟩
      exact hfolded.visible.trans (hinit.filter _)
  | key => exact .key
  | block => exact .block

theorem opens_of_ofText {s : String} {u : List Char} (hlead : Leads u s.toList) (hne : u ≠ []) :
    ∀ t ∈ (ofText s).head?, t.Opens u := by
  intro t ht
  rw [ofText] at ht
  split at ht
  · refine Lexer.head?_run rfl _ ?_ t ht
    exact Lexer.opens_of_step? hlead rfl rfl fun hnil => absurd hnil hne
  · next n _ =>
    obtain ⟨v, hv, hcut⟩ := hlead.take n
    have hopens : t.Opens v := by
      refine Lexer.head?_run rfl _ ?_ t ht
      exact Lexer.opens_of_step? hcut rfl rfl fun _ => rfl
    exact hopens.of_isPrefix hv

end Token

end Yaml

end ReplyCache
