import ReplyCache.Proofs.Json.Text

namespace ReplyCache

namespace Literal

theorem le_ofDigitChars (ds : List Char) (n : Nat) : n ≤ Nat.ofDigitChars 10 ds n := by
  induction ds generalizing n with
  | nil => exact Nat.le_refl n
  | cons d ds ih =>
      rw [Nat.ofDigitChars_cons]
      have hstep := ih (10 * n + (d.toNat - '0'.toNat))
      omega

theorem keep_of_lt {ds : List Char} {n : Nat}
    (h : Nat.ofDigitChars 10 ds n < 0x10000000000000000) :
    keep n ds = (Nat.ofDigitChars 10 ds n, []) := by
  induction ds generalizing n with
  | nil => rfl
  | cons d ds ih =>
      rw [Nat.ofDigitChars_cons] at h ⊢
      have hstep := le_ofDigitChars ds (10 * n + (d.toNat - '0'.toNat))
      have hmore : n * 10 + Text.digitValue d = 10 * n + (d.toNat - '0'.toNat) := by
        rw [Text.digitValue, Nat.mul_comm]
      simp only [keep]
      rw [hmore, if_pos (hstep.trans_lt h)]
      exact ih h

end Literal

namespace Number

def ReadsBack (n : Number) : Prop := n.literal.value? = some n

instance (n : Number) : Decidable n.ReadsBack := inferInstanceAs (Decidable (_ = _))

theorem readsBack_integer (i : Int) (h : -0x8000000000000000 ≤ i ∧ i < 0x10000000000000000) :
    (integer i h).ReadsBack := by
  have hkeep : Literal.keep 0 (Nat.toDigits 10 i.natAbs) = (i.natAbs, []) := by
    rw [Literal.keep_of_lt] <;> rw [Nat.ofDigitChars_ten_toDigits]
    omega
  simp only [ReadsBack, literal, Literal.ofInt, Literal.value?, hkeep]
  rw [if_pos (by rfl)]
  by_cases hneg : i < 0
  · have hrange : (0 < i.natAbs && i.natAbs ≤ 0x8000000000000000) = true := by
      rw [Bool.and_eq_true, decide_eq_true_eq, decide_eq_true_eq]
      omega
    have habs : -(i.natAbs : Int) = i := by omega
    rw [if_pos (decide_eq_true hneg), if_pos hrange, habs]
    exact dif_pos h
  · have habs : (i.natAbs : Int) = i := by omega
    rw [if_neg (by simp [hneg]), habs]
    exact dif_pos h

end Number

namespace Members

variable {α : Type}

theorem insert_of_all_lt {name : String} {value : α} {m : List (String × α)}
    (h : ∀ e ∈ m, e.1 < name) : insert name value m = m ++ [(name, value)] := by
  induction m with
  | nil => rfl
  | cons e m ih =>
      obtain ⟨hlt, hm⟩ := List.forall_mem_cons.1 h
      have hne : e.1 ≠ name := fun heq => String.lt_irrefl _ (heq ▸ hlt)
      rw [insert, if_neg hne, if_neg (fun hgt => String.lt_irrefl _ (String.lt_trans hlt hgt)),
        ih hm]
      rfl

theorem ofList_of_sorted {m : List (String × α)} (h : Sorted m) : ofList m = m := by
  induction m using List.reverseRecOn with
  | nil => rfl
  | append_singleton m e ih =>
      obtain ⟨hm, -, hlt⟩ := List.pairwise_append.1 h
      have hfold : ofList (m ++ [e]) = insert e.1 e.2 (ofList m) := List.foldl_append
      rw [hfold, ih hm]
      exact insert_of_all_lt fun d hd => hlt d hd e List.mem_cons_self

end Members

namespace Json

mutual

/-- The members of objects are in the order of their names, and numbers are read as they are
written. -/
def ReadsBack : Json → Prop
  | null | bool _ | string _ => True
  | number n => n.ReadsBack
  | array items => ItemsReadBack items
  | object members => Members.Sorted members ∧ MembersReadBack members
termination_by structural j => j

def ItemsReadBack : List Json → Prop
  | [] => True
  | x :: xs => ReadsBack x ∧ ItemsReadBack xs
termination_by structural xs => xs

def MembersReadBack : List (String × Json) → Prop
  | [] => True
  | m :: ms => MemberReadsBack m ∧ MembersReadBack ms
termination_by structural ms => ms

def MemberReadsBack : String × Json → Prop
  | (_, v) => ReadsBack v
termination_by structural m => m

end

theorem ofFloat_of_isFinite {x : Float} (h : x.isFinite = true) :
    ofFloat x = .number (.float x h) := by
  simp [ofFloat, Number.ofFloat?, h]

theorem readsBack_ofFloat {x : Float} (hfinite : x.isFinite = true)
    (h : (Number.float x hfinite).ReadsBack) : (ofFloat x).ReadsBack := by
  rw [ofFloat_of_isFinite hfinite]
  exact h

mutual

def nesting : Json → Nat
  | null | bool _ | number _ | string _ => 0
  | array items => itemsNesting items + 1
  | object members => membersNesting members + 1
termination_by structural j => j

def itemsNesting : List Json → Nat
  | [] => 0
  | x :: xs => max (nesting x) (itemsNesting xs)
termination_by structural xs => xs

def membersNesting : List (String × Json) → Nat
  | [] => 0
  | m :: ms => max (memberNesting m) (membersNesting ms)
termination_by structural ms => ms

def memberNesting : String × Json → Nat
  | (_, v) => nesting v
termination_by structural m => m

end

mutual

def toTree : Json → Tree
  | null => .null
  | bool b => .bool b
  | number n => .number n.literal.value?
  | string s => .string (some s)
  | array items => .array (itemsToTrees items)
  | object members => .object (membersToTrees members)
termination_by structural j => j

def itemsToTrees : List Json → List Tree
  | [] => []
  | x :: xs => toTree x :: itemsToTrees xs
termination_by structural xs => xs

def membersToTrees : List (String × Json) → List (Tree × Tree)
  | [] => []
  | m :: ms => memberToTrees m :: membersToTrees ms
termination_by structural ms => ms

def memberToTrees : String × Json → Tree × Tree
  | (name, v) => (.string (some name), toTree v)
termination_by structural m => m

end

theorem membersToTrees_eq_map (ms : List (String × Json)) :
    membersToTrees ms = ms.map memberToTrees := by
  induction ms with
  | nil => rfl
  | cons m ms ih => rw [membersToTrees, ih, List.map_cons]

theorem skipBlanks_cons {c : Char} (h : Tree.isBlank c = false) (cs : List Char) :
    Tree.skipBlanks (c :: cs) = c :: cs := by
  rw [Tree.skipBlanks, List.dropWhile_cons_of_neg (by simp [h])]

theorem joinCodes?_toNat (cs : List Char) : Tree.joinCodes? (cs.map Char.toNat) = some cs := by
  induction cs with
  | nil => rfl
  | cons c cs ih =>
      have hvalid : c.toNat < 0xD800 ∨ 0xDFFF < c.toNat := by
        rcases c.valid with h | h
        · exact .inl h
        · exact .inr h.1
      have htrailing : Tree.isTrailing c.toNat = false := by
        simp [Tree.isTrailing]
        omega
      have hleading : Tree.isLeading c.toNat = false := by
        simp [Tree.isLeading]
        omega
      rw [List.map_cons, Tree.joinCodes?.eq_def]
      dsimp only
      rw [htrailing, hleading, if_neg Bool.false_ne_true, if_neg Bool.false_ne_true, ih,
        Option.map_some, Char.ofNat_toNat]

theorem length_le_flatMap_escape (cs : List Char) : cs.length ≤ (cs.flatMap escape).length := by
  induction cs with
  | nil => exact Nat.le_refl _
  | cons c cs ih =>
      have hescape : 1 ≤ (escape c).length := by
        unfold escape
        split <;> try simp
        split <;> simp
      rw [List.flatMap_cons, List.length_append, List.length_cons]
      omega

theorem readString_escaped (s : String) (rest : List Char) :
    Tree.readString (s.toList.flatMap escape ++ '"' :: rest) = (.string (some s), some rest) := by
  have hlength := length_le_flatMap_escape s.toList
  have hfuel : (s.toList.flatMap escape ++ '"' :: rest).length + 1 = s.toList.length + 1 +
      ((s.toList.flatMap escape).length - s.toList.length + rest.length + 1) := by
    rw [List.length_append, List.length_cons]
    omega
  rw [Tree.readString, hfuel, readCodes?_flatMap]
  simp [joinCodes?_toNat]

theorem length_writeString (s : String) (rest : List Char) :
    rest.length + 2 ≤ (writeString s rest).length := by
  simp only [writeString, List.length_cons, List.length_append]
  omega

mutual

theorem length_lt_write : (v : Json) → (rest : List Char) → rest.length < (write v rest).length
  | null, rest => by
      simp only [write, List.length_cons]
      omega
  | bool b, rest => by
      cases b <;> simp only [write, List.length_cons] <;> omega
  | number n, rest => by
      obtain ⟨c, cs, hn, -⟩ := number_head n
      simp only [write, hn, List.length_append, List.length_cons]
      omega
  | string s, rest => by
      have hs := length_writeString s rest
      rw [write]
      omega
  | array [], rest => by
      simp only [write, List.length_cons]
      omega
  | array (x :: xs), rest => by
      have hx := length_lt_write x (writeItems xs (']' :: rest))
      have hxs := length_le_writeItems xs (']' :: rest)
      rw [List.length_cons] at hxs
      simp only [write, List.length_cons]
      omega
  | object [], rest => by
      simp only [write, List.length_cons]
      omega
  | object (m :: ms), rest => by
      have hm := length_lt_writeMember m (writeMembers ms ('}' :: rest))
      have hms := length_le_writeMembers ms ('}' :: rest)
      rw [List.length_cons] at hms
      simp only [write, List.length_cons]
      omega
termination_by structural v => v

theorem length_le_writeItems : (xs : List Json) → (rest : List Char) →
    rest.length ≤ (writeItems xs rest).length
  | [], rest => Nat.le_refl _
  | x :: xs, rest => by
      have hx := length_lt_write x (writeItems xs rest)
      have hxs := length_le_writeItems xs rest
      simp only [writeItems, List.length_cons]
      omega
termination_by structural xs => xs

theorem length_le_writeMembers : (ms : List (String × Json)) → (rest : List Char) →
    rest.length ≤ (writeMembers ms rest).length
  | [], rest => Nat.le_refl _
  | m :: ms, rest => by
      have hm := length_lt_writeMember m (writeMembers ms rest)
      have hms := length_le_writeMembers ms rest
      simp only [writeMembers, List.length_cons]
      omega
termination_by structural ms => ms

theorem length_lt_writeMember : (m : String × Json) → (rest : List Char) →
    rest.length < (writeMember m rest).length
  | (name, v), rest => by
      have hv := length_lt_write v rest
      have hname := length_writeString name (':' :: write v rest)
      rw [List.length_cons] at hname
      rw [writeMember]
      omega
termination_by structural m => m

end

theorem write_head (v : Json) (rest : List Char) :
    ∃ c cs, write v rest = c :: cs ∧ Tree.isBlank c = false ∧ c ≠ ']' := by
  cases hv : opening? v with
  | none =>
      obtain ⟨n, rfl⟩ := eq_number_of_opening hv
      obtain ⟨c, cs, hn, hc⟩ := number_head n
      refine ⟨c, cs ++ rest, by rw [write, hn]; rfl, ?_⟩
      rcases hc with rfl | hc
      · decide
      · constructor
        · cases hblank : Tree.isBlank c with
          | false => rfl
          | true =>
              simp only [Tree.isBlank, Bool.or_eq_true, decide_eq_true_eq] at hblank
              rcases hblank with ((rfl | rfl) | rfl) | rfl <;> cases hc
        · rintro rfl
          cases hc
  | some c =>
      obtain ⟨cs, hcs⟩ := write_opening hv rest
      refine ⟨c, cs, hcs, ?_⟩
      cases v with
      | bool b => cases b <;> obtain rfl := Option.some.inj hv <;> decide
      | number n => cases hv
      | null | string s | array items | object members =>
          obtain rfl := Option.some.inj hv
          decide

theorem readValue_number (n : Number) {rest : List Char} (hr : Literal.Stops rest) (fuel : Nat) :
    Tree.readValue (fuel + 1) (n.chars ++ rest) = (.number n.literal.value?, some rest) := by
  obtain ⟨c, cs, hn, hc⟩ := number_head n
  obtain ⟨d, ds, hd, hblank, -⟩ := write_head (.number n) rest
  rw [write, hn, List.cons_append] at hd
  obtain ⟨rfl, -⟩ := List.cons.inj hd
  have hread : Tree.readNumber (n.chars ++ rest) = (.number n.literal.value?, some rest) := by
    rw [Tree.readNumber, n.read?_chars hr]
  rw [← hread, hn, List.cons_append, Tree.readValue.eq_def]
  dsimp only
  rw [skipBlanks_cons hblank]
  split
  all_goals first
    | rfl
    | (rename_i heq
       obtain ⟨rfl, -⟩ := List.cons.inj heq
       rcases hc with hc | hc <;> cases hc)

theorem readValue_bracket {c : Char} (hblank : Tree.isBlank c = false) (hne : c ≠ ']')
    (cs : List Char) (fuel : Nat) :
    Tree.readValue (fuel + 1) ('[' :: c :: cs) =
      (.array (Tree.readItems fuel (c :: cs)).1, (Tree.readItems fuel (c :: cs)).2) := by
  have hopening : Tree.isBlank '[' = false := by decide
  rw [Tree.readValue.eq_def]
  dsimp only
  rw [skipBlanks_cons hopening]
  split
  case h_5 heq =>
    obtain ⟨-, rfl⟩ := List.cons.inj heq
    rw [skipBlanks_cons hblank]
    split
    · rename_i heq
      exact (hne (List.cons.inj heq).1).elim
    · rfl
  case h_7 hbracket _ => exact (hbracket _ rfl).elim
  all_goals
    rename_i heq
    cases (List.cons.inj heq).1

theorem readMember_named {cs rest : List Char} {name : Tree}
    (h : Tree.readString cs = (name, some (':' :: rest))) (fuel : Nat) :
    Tree.readMember (fuel + 1) ('"' :: cs) =
      ((name, (Tree.readValue fuel rest).1), (Tree.readValue fuel rest).2) := by
  have hquote : Tree.isBlank '"' = false := by decide
  have hcolon : Tree.isBlank ':' = false := by decide
  rw [Tree.readMember.eq_def]
  dsimp only
  rw [skipBlanks_cons hquote]
  split
  case h_1 heq =>
    obtain ⟨-, rfl⟩ := List.cons.inj heq
    rw [h]
    dsimp only
    rw [skipBlanks_cons hcolon]
    rfl
  case h_2 hne => exact (hne cs rfl).elim

theorem readItems_first {x : Json} {xs : List Json} {rest : List Char} {fuel : Nat}
    (hx : Tree.readValue fuel (write x (writeItems xs (']' :: rest))) =
      (toTree x, some (writeItems xs (']' :: rest))))
    (hxs : ∀ cs, writeItems xs (']' :: rest) = ',' :: cs →
      Tree.readItems fuel cs = (itemsToTrees xs, some rest)) :
    Tree.readItems (fuel + 1) (write x (writeItems xs (']' :: rest))) =
      (itemsToTrees (x :: xs), some rest) := by
  rw [Tree.readItems, hx]
  cases xs with
  | nil => rfl
  | cons y ys =>
      exact congrArg (fun r => (toTree x :: r.1, r.2)) (hxs _ rfl)

theorem readMembers_first {m : String × Json} {ms : List (String × Json)} {rest : List Char}
    {fuel : Nat}
    (hm : Tree.readMember fuel (writeMember m (writeMembers ms ('}' :: rest))) =
      (memberToTrees m, some (writeMembers ms ('}' :: rest))))
    (hms : ∀ cs, writeMembers ms ('}' :: rest) = ',' :: cs →
      Tree.readMembers fuel cs = (membersToTrees ms, some rest)) :
    Tree.readMembers (fuel + 1) (writeMember m (writeMembers ms ('}' :: rest))) =
      (membersToTrees (m :: ms), some rest) := by
  rw [Tree.readMembers, hm]
  cases ms with
  | nil => rfl
  | cons n ns =>
      exact congrArg (fun r => (memberToTrees m :: r.1, r.2)) (hms _ rfl)

mutual

theorem readValue_write : (v : Json) → {rest : List Char} → Literal.Stops rest → {fuel : Nat} →
    3 * (write v rest).length ≤ fuel → Tree.readValue fuel (write v rest) = (toTree v, some rest)
  | v, rest, _, 0, hfuel => by
      have hlength := length_lt_write v rest
      omega
  | null, rest, _, fuel + 1, _ => rfl
  | bool b, rest, _, fuel + 1, _ => by cases b <;> rfl
  | number n, rest, hr, fuel + 1, _ => readValue_number n hr fuel
  | string s, rest, _, fuel + 1, _ => readString_escaped s rest
  | array [], rest, _, fuel + 1, _ => rfl
  | array (x :: xs), rest, _, fuel + 1, hfuel => by
      have hlength := length_lt_write x (writeItems xs (']' :: rest))
      obtain ⟨c, cs, hhead, hblank, hbracket⟩ := write_head x (writeItems xs (']' :: rest))
      rw [write, List.length_cons] at hfuel
      cases fuel with
      | zero => omega
      | succ fuel =>
          have hitems : Tree.readItems (fuel + 1) (write x (writeItems xs (']' :: rest))) =
              (itemsToTrees (x :: xs), some rest) := by
            apply readItems_first
            · exact readValue_write x (stops_writeItems xs rest) (by omega)
            · intro cs hcs
              have htail := congrArg List.length hcs
              rw [List.length_cons] at htail
              exact readItems_write xs hcs (by omega)
          rw [write, hhead, readValue_bracket hblank hbracket, ← hhead, hitems]
          rfl
  | object [], rest, _, fuel + 1, _ => rfl
  | object (m :: ms), rest, _, fuel + 1, hfuel => by
      have hlength := length_lt_writeMember m (writeMembers ms ('}' :: rest))
      rw [write, List.length_cons] at hfuel
      cases fuel with
      | zero => omega
      | succ fuel =>
          have hmembers : Tree.readMembers (fuel + 1) (writeMember m (writeMembers ms
              ('}' :: rest))) = (membersToTrees (m :: ms), some rest) := by
            apply readMembers_first
            · exact readMember_write m (stops_writeMembers ms rest) (by omega)
            · intro cs hcs
              have htail := congrArg List.length hcs
              rw [List.length_cons] at htail
              exact readMembers_write ms hcs (by omega)
          obtain ⟨name, v⟩ := m
          exact congrArg (fun r => (Tree.object r.1, r.2)) hmembers
termination_by structural v => v

theorem readItems_write : (xs : List Json) → {cs rest : List Char} →
    writeItems xs (']' :: rest) = ',' :: cs → {fuel : Nat} → 3 * cs.length + 1 ≤ fuel →
    Tree.readItems fuel cs = (itemsToTrees xs, some rest)
  | [], _, _, h, _, _ => by simp [writeItems] at h
  | _ :: _, _, _, _, 0, hfuel => by omega
  | x :: xs, _, rest, h, fuel + 1, hfuel => by
      obtain rfl := (List.cons.inj h).2
      have hlength := length_lt_write x (writeItems xs (']' :: rest))
      apply readItems_first
      · exact readValue_write x (stops_writeItems xs rest) (by omega)
      · intro cs hcs
        have htail := congrArg List.length hcs
        rw [List.length_cons] at htail
        exact readItems_write xs hcs (by omega)
termination_by structural xs => xs

theorem readMembers_write : (ms : List (String × Json)) → {cs rest : List Char} →
    writeMembers ms ('}' :: rest) = ',' :: cs → {fuel : Nat} → 3 * cs.length + 2 ≤ fuel →
    Tree.readMembers fuel cs = (membersToTrees ms, some rest)
  | [], _, _, h, _, _ => by simp [writeMembers] at h
  | _ :: _, _, _, _, 0, hfuel => by omega
  | m :: ms, _, rest, h, fuel + 1, hfuel => by
      obtain rfl := (List.cons.inj h).2
      have hlength := length_lt_writeMember m (writeMembers ms ('}' :: rest))
      apply readMembers_first
      · exact readMember_write m (stops_writeMembers ms rest) (by omega)
      · intro cs hcs
        have htail := congrArg List.length hcs
        rw [List.length_cons] at htail
        exact readMembers_write ms hcs (by omega)
termination_by structural ms => ms

theorem readMember_write : (m : String × Json) → {rest : List Char} → Literal.Stops rest →
    {fuel : Nat} → 3 * (writeMember m rest).length + 1 ≤ fuel →
    Tree.readMember fuel (writeMember m rest) = (memberToTrees m, some rest)
  | _, _, _, 0, hfuel => by omega
  | (name, v), rest, hr, fuel + 1, hfuel => by
      have hlength := length_writeString name (':' :: write v rest)
      rw [writeMember] at hfuel
      rw [List.length_cons] at hlength
      have hv : Tree.readValue fuel (write v rest) = (toTree v, some rest) :=
        readValue_write v hr (by omega)
      have hname := readString_escaped name (':' :: write v rest)
      rw [writeMember, writeString, List.cons_append, readMember_named hname, hv]
      rfl
termination_by structural m => m

end

mutual

/-- A tree gives back its value, unless that nests too deep. -/
theorem toJson?_toTree : (v : Json) → ReadsBack v → (depth : Nat) →
    Tree.toJson? depth (toTree v) = if nesting v ≤ depth then some v else none
  | null, _, depth | bool _, _, depth | string _, _, depth => by
      rw [nesting, if_pos (Nat.zero_le depth)]
      cases depth <;> rfl
  | number n, h, depth => by
      have hn : n.literal.value? = some n := h
      rw [nesting, if_pos (Nat.zero_le depth), toTree, hn]
      cases depth <;> rfl
  | array xs, _, 0 => by
      rw [nesting, if_neg (Nat.not_succ_le_zero _)]
      rfl
  | array xs, h, depth + 1 => by
      rw [toTree, nesting, Tree.toJson?, itemsToJson?_toTrees xs h depth]
      simp only [Nat.add_le_add_iff_right]
      split <;> rfl
  | object ms, _, 0 => by
      rw [nesting, if_neg (Nat.not_succ_le_zero _)]
      rfl
  | object ms, h, depth + 1 => by
      rw [toTree, nesting, Tree.toJson?, membersToJson?_toTrees ms h.2 depth]
      simp only [Nat.add_le_add_iff_right]
      split
      · exact congrArg (fun l => some (object l)) (Members.ofList_of_sorted h.1)
      · rfl
termination_by structural v => v

theorem itemsToJson?_toTrees : (xs : List Json) → ItemsReadBack xs → (depth : Nat) →
    Tree.itemsToJson? depth (itemsToTrees xs) =
      if itemsNesting xs ≤ depth then some xs else none
  | [], _, depth => (if_pos (Nat.zero_le depth)).symm
  | x :: xs, h, depth => by
      rw [itemsToTrees, itemsNesting, Tree.itemsToJson?, toJson?_toTree x h.1 depth,
        itemsToJson?_toTrees xs h.2 depth]
      by_cases hx : nesting x ≤ depth <;> by_cases hxs : itemsNesting xs ≤ depth <;>
        simp [hx, hxs]
termination_by structural xs => xs

theorem membersToJson?_toTrees : (ms : List (String × Json)) → MembersReadBack ms →
    (depth : Nat) → Tree.membersToJson? depth (membersToTrees ms) =
      if membersNesting ms ≤ depth then some ms else none
  | [], _, depth => (if_pos (Nat.zero_le depth)).symm
  | m :: ms, h, depth => by
      rw [membersToTrees, membersNesting, Tree.membersToJson?, memberToJson?_toTrees m h.1 depth,
        membersToJson?_toTrees ms h.2 depth]
      by_cases hm : memberNesting m ≤ depth <;> by_cases hms : membersNesting ms ≤ depth <;>
        simp [hm, hms]
termination_by structural ms => ms

theorem memberToJson?_toTrees : (m : String × Json) → MemberReadsBack m → (depth : Nat) →
    Tree.memberToJson? depth (memberToTrees m) =
      if memberNesting m ≤ depth then some m else none
  | (name, v), h, depth => by
      rw [memberToTrees, memberNesting, Tree.memberToJson?, toJson?_toTree v h depth]
      split <;> rfl
termination_by structural m => m

end

theorem ofChars_chars (v : Json) : Tree.ofChars v.chars = (toTree v, true) := by
  have hread : Tree.readValue (Tree.fuel v.chars) v.chars = (toTree v, some []) := by
    apply readValue_write v Literal.stops_nil
    simp only [Tree.fuel, chars]
    omega
  rw [Tree.ofChars, hread]
  rfl

/-- A value is read back from its text, unless it nests too deep. -/
theorem ofText?_text {v : Json} (h : v.ReadsBack) :
    ofText? v.text = if v.nesting ≤ deepest then some v else none := by
  rw [ofText?, text, String.toList_ofList, ofChars_chars]
  exact toJson?_toTree v h deepest

end Json

end ReplyCache
