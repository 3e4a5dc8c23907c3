import ReplyCache.Yaml.Lexer

namespace ReplyCache

namespace Yaml

namespace Lexer

variable {l m : Lexer} {t : Token} {fuel : Nat}

/-- The lexers that `r` may give have the tokens of `l`, and perhaps more after them. -/
def Grows (l : Lexer) (r : Option Lexer) : Prop := ∀ m ∈ r, l.tokens <:+ m.tokens

namespace Grows

variable {r s : Option Lexer}

theorem some (h : l.tokens <:+ m.tokens) : Grows l (Option.some m) := by
  intro m' hm
  obtain rfl := Option.some.inj hm
  exact h

theorem emit (h : m.tokens = t :: l.tokens) : Grows l (Option.some m) :=
  .some (h ▸ List.suffix_cons t _)

theorem of_suffix (h : Grows m r) (hsuffix : l.tokens <:+ m.tokens) : Grows l r :=
  fun m' hm => hsuffix.trans (h m' hm)

theorem bind {f : Lexer → Option Lexer} (h : Grows l r) (hf : ∀ l', Grows l' (f l')) :
    Grows l (r >>= f) := by
  intro m hm
  obtain ⟨l', hl, hm⟩ := Option.bind_eq_some_iff.1 hm
  exact (h l' hl).trans (hf l' m hm)

theorem read {α : Type} {o : Option α} {f : α → Option Lexer} (hf : ∀ a, Grows l (f a)) :
    Grows l (o >>= f) := by
  intro m hm
  obtain ⟨a, -, hm⟩ := Option.bind_eq_some_iff.1 hm
  exact hf a m hm

theorem ite {p : Prop} [Decidable p] (hr : Grows l r) (hs : Grows l s) :
    Grows l (if p then r else s) := by
  split
  · exact hr
  · exact hs

end Grows

theorem suffix_unrollFrom (column : Int) (is : List Int) (l : Lexer) :
    l.tokens <:+ (unrollFrom column is l).tokens := by
  induction is generalizing l with
  | nil => exact List.suffix_refl _
  | cons i is ih =>
      rw [unrollFrom]
      split
      · exact List.suffix_refl _
      · exact (List.suffix_cons _ _).trans
          (ih { l.emit .blockEnd with indent := i, outerIndents := is })

theorem suffix_unroll (column : Int) (l : Lexer) : l.tokens <:+ (l.unroll column).tokens := by
  rw [unroll]
  split
  · exact List.suffix_refl _
  · exact suffix_unrollFrom column _ l

theorem dropCandidate?_eq_some (h : l.dropCandidate? = some m) :
    m = { l with candidate := none } := by
  rw [dropCandidate?] at h
  split at h
  · cases h
  · exact (Option.some.inj h).symm

theorem saveCandidate?_eq_some (h : l.saveCandidate? = some m) :
    ∃ candidate, m = { l with candidate := candidate } := by
  rw [saveCandidate?] at h
  split at h
  · obtain ⟨l', hdrop, h⟩ := Option.bind_eq_some_iff.1 h
    rw [dropCandidate?_eq_some hdrop] at h
    exact ⟨_, (Option.some.inj h).symm⟩
  · exact ⟨_, (Option.some.inj h).symm⟩

theorem grows_dropCandidate : Grows l l.dropCandidate? := by
  intro m hm
  obtain rfl := dropCandidate?_eq_some hm
  exact List.suffix_refl _

theorem grows_saveCandidate : Grows l l.saveCandidate? := by
  intro m hm
  obtain ⟨candidate, rfl⟩ := saveCandidate?_eq_some hm
  exact List.suffix_refl _

theorem grows_outermost : Grows l l.outermost? :=
  (grows_dropCandidate.of_suffix (suffix_unroll _ l)).bind fun _ => .some (List.suffix_refl _)

theorem grows_streamEnd : Grows l l.streamEnd? :=
  grows_outermost.bind fun _ => .emit rfl

theorem grows_directive : Grows l (l.directive? fuel) :=
  grows_outermost.bind fun _ => .read fun ⟨_, _⟩ => .emit rfl

theorem grows_documentMark : Grows l (l.documentMark? t) :=
  grows_outermost.bind fun _ => .emit rfl

theorem grows_flowStart : Grows l (l.flowStart? t) :=
  grows_saveCandidate.bind fun _ => .emit rfl

theorem grows_flowEnd : Grows l (l.flowEnd? t) := by
  refine grows_dropCandidate.bind fun l' => ?_
  cases l'.outerCandidates <;> exact .emit rfl

theorem grows_flowEntry : Grows l l.flowEntry? :=
  grows_dropCandidate.bind fun _ => .emit rfl

theorem grows_rollHere : Grows l (l.rollHere? t) := by
  refine Grows.ite (.some ?_) nofun
  rw [Lexer.roll]
  split
  · exact List.suffix_refl _
  · exact List.suffix_cons _ _

theorem grows_blockEntry : Grows l l.blockEntry? :=
  grows_rollHere.bind fun _ => grows_dropCandidate.bind fun _ => .emit rfl

theorem grows_key : Grows l l.key? :=
  grows_rollHere.bind fun _ => grows_dropCandidate.bind fun _ => .emit rfl

theorem grows_nodePart {read : Cursor → Option (Token × Cursor)} : Grows l (l.nodePart? read) :=
  grows_saveCandidate.bind fun _ => .read fun ⟨_, _⟩ => .emit rfl

theorem grows_block {folded : Bool} : Grows l (l.block? fuel folded) :=
  grows_dropCandidate.bind fun _ => .read fun ⟨_, _⟩ => .emit rfl

theorem grows_plain : Grows l (l.plain? fuel) :=
  grows_saveCandidate.bind fun _ => .read fun ⟨_, _⟩ => .emit rfl

theorem value_or_grows_ite {p : Prop} [Decidable p] {r s : Option Lexer}
    (hr : r = l.value? ∨ Grows l r) (hs : s = l.value? ∨ Grows l s) :
    (if p then r else s) = l.value? ∨ Grows l (if p then r else s) := by
  split
  · exact hr
  · exact hs

/-- Only a colon puts tokens in front of others. -/
theorem token?_cases : l.token? fuel = l.value? ∨ Grows l (l.token? fuel) := by
  rw [token?]
  rcases l.cursor.rest with _ | ⟨x, rest⟩
  · exact .inr grows_streamEnd
  dsimp only
  refine value_or_grows_ite (.inr grows_directive) ?_
  refine value_or_grows_ite (.inr grows_documentMark) ?_
  refine value_or_grows_ite (.inr grows_documentMark) ?_
  refine value_or_grows_ite (.inr grows_flowStart) ?_
  refine value_or_grows_ite (.inr grows_flowStart) ?_
  refine value_or_grows_ite (.inr grows_flowEnd) ?_
  refine value_or_grows_ite (.inr grows_flowEnd) ?_
  refine value_or_grows_ite (.inr grows_flowEntry) ?_
  refine value_or_grows_ite (.inr grows_blockEntry) ?_
  refine value_or_grows_ite (.inr grows_key) ?_
  refine value_or_grows_ite (.inl rfl) ?_
  refine value_or_grows_ite (.inr grows_nodePart) ?_
  refine value_or_grows_ite (.inr grows_nodePart) ?_
  refine value_or_grows_ite (.inr grows_nodePart) ?_
  refine value_or_grows_ite (.inr grows_block) ?_
  refine value_or_grows_ite (.inr grows_block) ?_
  refine value_or_grows_ite (.inr grows_nodePart) ?_
  refine value_or_grows_ite (.inr grows_nodePart) ?_
  exact value_or_grows_ite (.inr grows_plain) (.inr nofun)

theorem tokens_of_flowStart (h : l.flowStart? t = some m) : m.tokens = t :: l.tokens := by
  obtain ⟨l', hsave, h⟩ := Option.bind_eq_some_iff.1 h
  obtain ⟨candidate, rfl⟩ := saveCandidate?_eq_some hsave
  obtain rfl := Option.some.inj h
  rfl

theorem plain?_eq_some (h : l.plain? fuel = some m) : ∃ text ends c,
    Plain.read? l.inFlow (l.indent + 1) fuel [] {} l.cursor = some (text, ends, c) ∧
      m.tokens = .scalar .plain (String.ofList text) :: l.tokens := by
  obtain ⟨l', hsave, h⟩ := Option.bind_eq_some_iff.1 h
  obtain ⟨candidate, rfl⟩ := saveCandidate?_eq_some hsave
  obtain ⟨⟨text, ends, c⟩, hread, h⟩ := Option.bind_eq_some_iff.1 h
  obtain rfl := Option.some.inj h
  exact ⟨text, ends, c, hread, rfl⟩

def passMark (l : Lexer) : Lexer :=
  if l.cursor.column = 0 && l.cursor.isAt byteOrderMark then l.skip else l

def passBlanks (l : Lexer) : Cursor :=
  let c := l.cursor.skipWhile fun x => x = ' ' || ((l.inFlow || !l.mayStartKey) && x = '\t')
  if c.isAt '#' then c.skipWhile (!isBreak ·) else c

theorem skipSpace_succ (fuel : Nat) (l : Lexer) : skipSpace (fuel + 1) l =
    match l.passMark.passBlanks.next? with
    | none => { l.passMark with cursor := l.passMark.passBlanks }
    | some x =>
      if isBreak x then
        skipSpace fuel { l.passMark with
          cursor := l.passMark.passBlanks.skipLine
          mayStartKey := l.passMark.mayStartKey || !l.passMark.inFlow }
      else { l.passMark with cursor := l.passMark.passBlanks } := rfl

theorem passMark_eq (l : Lexer) : ∃ c, l.passMark = { l with cursor := c } := by
  rw [passMark]
  split
  · exact ⟨_, rfl⟩
  · exact ⟨_, rfl⟩

/-- Only the cursor moves, and whether a key may start is noted. -/
theorem skipSpace_eq (fuel : Nat) (l : Lexer) :
    ∃ c allowed, skipSpace fuel l = { l with cursor := c, mayStartKey := allowed } := by
  induction fuel generalizing l with
  | zero => exact ⟨_, _, rfl⟩
  | succ fuel ih =>
      obtain ⟨c, hmark⟩ := l.passMark_eq
      rw [skipSpace_succ, hmark]
      split
      · exact ⟨_, _, rfl⟩
      · split
        · exact ih _
        · exact ⟨_, _, rfl⟩

theorem skipSpace_keeps (fuel : Nat) (l : Lexer) : (skipSpace fuel l).tokens = l.tokens ∧
    (skipSpace fuel l).outerIndents = l.outerIndents ∧ (skipSpace fuel l).isCut = l.isCut := by
  obtain ⟨c, allowed, hskip⟩ := skipSpace_eq fuel l
  rw [hskip]
  exact ⟨rfl, rfl, rfl⟩

theorem unroll_of_outermost (h : l.outerIndents = []) (column : Int) : l.unroll column = l := by
  rw [unroll, h]
  exact ite_self _

theorem step?_eq_some (h : l.step? fuel = some m) :
    (l.skipSpace fuel).sees lookahead = true ∧
      ((l.skipSpace fuel).unroll (l.skipSpace fuel).cursor.column).token? fuel = some m := by
  rw [step?] at h
  split at h
  · cases h
  · next hsees =>
    obtain ⟨l', htoken, h⟩ := Option.bind_eq_some_iff.1 h
    split at h
    · cases h
    · obtain rfl := Option.some.inj h
      simp only [Bool.or_eq_true, not_or, Bool.not_eq_true', Bool.not_eq_false] at hsees
      exact ⟨hsees.2, htoken⟩

end Lexer

end Yaml

end ReplyCache
