import ReplyCache.Json.Tree
import ReplyCache.Proofs.Json.Number

namespace ReplyCache

namespace Json

theorem readHex4?_control : ∀ n < 32,
    Text.natural? 16 ['0', '0', hexDigit (n / 16), hexDigit n] = some n := by
  decide

theorem readCodes?_plain {c : Char} (hquote : c ≠ '"') (hback : c ≠ '\\') (hlow : ¬ c.toNat < 32)
    (fuel : Nat) (rest : List Char) :
    Tree.readCodes? (fuel + 1) (c :: rest) =
      (Tree.readCodes? fuel rest).map fun r => (c.toNat :: r.1, r.2) := by
  rw [Tree.readCodes?, if_neg hlow]
  · cases Tree.readCodes? fuel rest <;> rfl
  · exact fun h => hquote h
  · exact fun _ h => (hback h).elim
  · exact fun _ _ h => (hback h).elim

theorem readCodes?_escape (c : Char) (fuel : Nat) (rest : List Char) :
    Tree.readCodes? (fuel + 1) (escape c ++ rest) =
      (Tree.readCodes? fuel rest).map fun r => (c.toNat :: r.1, r.2) := by
  simp only [escape]
  split
  case h_8 hquote hback _ _ _ _ _ =>
    split
    · rename_i hlow
      have hhex := readHex4?_control c.toNat hlow
      cases hread : Tree.readCodes? fuel rest <;>
        simp [Tree.readCodes?, Tree.readHex4?, hhex, hread]
    · rename_i hlow
      exact readCodes?_plain hquote hback hlow fuel rest
  all_goals
    cases hread : Tree.readCodes? fuel rest <;> simp [Tree.readCodes?, Tree.escaped?, hread]

theorem readCodes?_flatMap (cs : List Char) (extra : Nat) (rest : List Char) :
    Tree.readCodes? (cs.length + 1 + extra) (cs.flatMap escape ++ '"' :: rest) =
      some (cs.map Char.toNat, rest) := by
  induction cs with
  | nil =>
      rw [List.length_nil, Nat.zero_add, Nat.add_comm]
      rfl
  | cons c cs ih =>
      have hfuel : (c :: cs).length + 1 + extra = cs.length + 1 + extra + 1 := by
        rw [List.length_cons]
        omega
      rw [hfuel, List.flatMap_cons, List.append_assoc, readCodes?_escape, ih]
      rfl

theorem toNat_injective {c d : Char} (h : c.toNat = d.toNat) : c = d :=
  Char.ext (UInt32.toNat_inj.1 h)

theorem eq_of_writeString_eq {s t : String} {rest rest' : List Char}
    (h : writeString s rest = writeString t rest') : s = t ∧ rest = rest' := by
  simp only [writeString] at h
  simp only [List.cons_append, List.cons.injEq, true_and] at h
  have hs := readCodes?_flatMap s.toList t.toList.length rest
  have ht := readCodes?_flatMap t.toList s.toList.length rest'
  have hfuel : s.toList.length + 1 + t.toList.length = t.toList.length + 1 + s.toList.length := by
    omega
  rw [h, hfuel, ht] at hs
  obtain ⟨hcodes, hrest⟩ := Prod.mk.inj (Option.some.inj hs)
  have hchars := List.map_injective_iff.2 (fun _ _ => toNat_injective) hcodes
  exact ⟨(String.toList_inj.1 hchars).symm, hrest.symm⟩

theorem number_head (n : Number) :
    ∃ c cs, n.chars = c :: cs ∧ (c = '-' ∨ c.isDigit = true) := by
  obtain ⟨hall, hwhole⟩ := n.wellFormed_literal.whole
  rw [n.chars_eq_text, Literal.text]
  cases n.literal.negative with
  | true => exact ⟨'-', _, rfl, .inl rfl⟩
  | false =>
      obtain ⟨d, ds, hds⟩ : ∃ d ds, n.literal.whole = d :: ds := by
        rcases hwhole with h | ⟨d, ds, h, -⟩
        · exact ⟨_, _, h⟩
        · exact ⟨d, ds, h⟩
      rw [hds] at hall ⊢
      exact ⟨d, _, rfl, .inr (hall d List.mem_cons_self)⟩

/-- The character that every text of a value starts with, unless the value is a number. -/
def opening? : Json → Option Char
  | null => some 'n'
  | bool true => some 't'
  | bool false => some 'f'
  | number _ => none
  | string _ => some '"'
  | array _ => some '['
  | object _ => some '{'

theorem write_opening {v : Json} {c : Char} (h : opening? v = some c) (rest : List Char) :
    ∃ cs, write v rest = c :: cs := by
  cases v with
  | number n => cases h
  | bool b => cases b <;> obtain rfl := Option.some.inj h <;> exact ⟨_, rfl⟩
  | array items => cases items <;> obtain rfl := Option.some.inj h <;> exact ⟨_, rfl⟩
  | object members => cases members <;> obtain rfl := Option.some.inj h <;> exact ⟨_, rfl⟩
  | null | string s =>
      obtain rfl := Option.some.inj h
      exact ⟨_, rfl⟩

theorem opening_ne_number {v : Json} {c : Char} (h : opening? v = some c) :
    c ≠ '-' ∧ c.isDigit = false := by
  cases v with
  | number n => cases h
  | bool b => cases b <;> obtain rfl := Option.some.inj h <;> decide
  | null | string s | array items | object members =>
      obtain rfl := Option.some.inj h
      decide

theorem eq_number_of_opening {v : Json} (h : opening? v = none) : ∃ n, v = number n := by
  cases v with
  | number n => exact ⟨n, rfl⟩
  | bool b => cases b <;> cases h
  | null | string s | array items | object members => cases h

theorem number_ne_write (n : Number) {w : Json} {c : Char} (hw : opening? w = some c)
    {rest rest' : List Char} : write (number n) rest ≠ write w rest' := by
  obtain ⟨d, ds, hn, hd⟩ := number_head n
  obtain ⟨cs, hcs⟩ := write_opening hw rest'
  intro h
  rw [write, hn, hcs] at h
  obtain ⟨hne, hdigit⟩ := opening_ne_number hw
  rw [(List.cons.inj h).1, hdigit] at hd
  rcases hd with hd | hd
  · exact hne hd
  · cases hd

theorem opening_eq_of_write_eq {v w : Json} {rest rest' : List Char}
    (h : write v rest = write w rest') : opening? v = opening? w := by
  cases hv : opening? v with
  | none =>
      cases hw : opening? w with
      | none => rfl
      | some d =>
          obtain ⟨n, rfl⟩ := eq_number_of_opening hv
          exact (number_ne_write n hw h).elim
  | some c =>
      obtain ⟨cs, hcs⟩ := write_opening hv rest
      cases hw : opening? w with
      | none =>
          obtain ⟨n, rfl⟩ := eq_number_of_opening hw
          exact (number_ne_write n hv h.symm).elim
      | some d =>
          obtain ⟨ds, hds⟩ := write_opening hw rest'
          rw [hcs, hds] at h
          rw [(List.cons.inj h).1]

theorem bracket_ne_write (v : Json) {rest rest' : List Char} : ']' :: rest ≠ write v rest' := by
  intro h
  cases hv : opening? v with
  | none =>
      obtain ⟨n, rfl⟩ := eq_number_of_opening hv
      obtain ⟨d, ds, hn, hd⟩ := number_head n
      rw [write, hn] at h
      rw [← (List.cons.inj h).1] at hd
      simp at hd
  | some c =>
      obtain ⟨cs, hcs⟩ := write_opening hv rest'
      rw [hcs] at h
      obtain rfl := (List.cons.inj h).1
      cases v with
      | bool b => cases b <;> simp [opening?] at hv
      | _ => simp [opening?] at hv

theorem eq_of_number_eq {n n' : Number} {rest rest' : List Char} (hr : Literal.Stops rest)
    (hr' : Literal.Stops rest') (h : n.chars ++ rest = n'.chars ++ rest') :
    n = n' ∧ rest = rest' := by
  have hread := n.read?_chars hr
  rw [h, n'.read?_chars hr'] at hread
  obtain ⟨hlit, hrest⟩ := Prod.mk.inj (Option.some.inj hread)
  exact ⟨(Number.literal_injective hlit).symm, hrest.symm⟩

theorem stops_writeItems (xs : List Json) (rest : List Char) :
    Literal.Stops (writeItems xs (']' :: rest)) := by
  cases xs with
  | nil => exact Literal.stops_cons (by decide) _
  | cons x xs => exact Literal.stops_cons (by decide) _

theorem stops_writeMembers (ms : List (String × Json)) (rest : List Char) :
    Literal.Stops (writeMembers ms ('}' :: rest)) := by
  cases ms with
  | nil => exact Literal.stops_cons (by decide) _
  | cons m ms => exact Literal.stops_cons (by decide) _

mutual

/-- The text of a value tells the value and its own end. -/
theorem eq_of_write_eq : (v w : Json) → {rest rest' : List Char} → Literal.Stops rest →
    Literal.Stops rest' → write v rest = write w rest' → v = w ∧ rest = rest'
  | null, w, _, _, _, _, h => by
      have hopen := opening_eq_of_write_eq h
      cases w with
      | null => simpa [write] using h
      | bool b => cases b <;> simp [opening?] at hopen
      | number _ | string _ | array _ | object _ => simp [opening?] at hopen
  | bool b, w, _, _, _, _, h => by
      have hopen := opening_eq_of_write_eq h
      cases w with
      | bool b' => cases b <;> cases b' <;> simp_all [opening?, write]
      | null | number _ | string _ | array _ | object _ => cases b <;> simp [opening?] at hopen
  | number n, w, _, _, hr, hr', h => by
      obtain ⟨n', rfl⟩ := eq_number_of_opening (opening_eq_of_write_eq h).symm
      obtain ⟨rfl, hrest⟩ := eq_of_number_eq hr hr' h
      exact ⟨rfl, hrest⟩
  | string s, w, _, _, _, _, h => by
      have hopen := opening_eq_of_write_eq h
      cases w with
      | string t =>
          obtain ⟨rfl, hrest⟩ := eq_of_writeString_eq h
          exact ⟨rfl, hrest⟩
      | bool b => cases b <;> simp [opening?] at hopen
      | null | number _ | array _ | object _ => simp [opening?] at hopen
  | array xs, w, _, _, _, _, h => by
      have hopen := opening_eq_of_write_eq h
      cases w with
      | array ys =>
          obtain ⟨rfl, hrest⟩ := eq_of_writeList_eq xs ys h
          exact ⟨rfl, hrest⟩
      | bool b => cases b <;> simp [opening?] at hopen
      | null | number _ | string _ | object _ => simp [opening?] at hopen
  | object ms, w, _, _, _, _, h => by
      have hopen := opening_eq_of_write_eq h
      cases w with
      | object ns =>
          obtain ⟨rfl, hrest⟩ := eq_of_writeObject_eq ms ns h
          exact ⟨rfl, hrest⟩
      | bool b => cases b <;> simp [opening?] at hopen
      | null | number _ | string _ | array _ => simp [opening?] at hopen
termination_by structural v => v

theorem eq_of_writeList_eq : (xs ys : List Json) → {rest rest' : List Char} →
    write (array xs) rest = write (array ys) rest' → xs = ys ∧ rest = rest'
  | [], [], _, _, h => ⟨rfl, by simpa [write] using h⟩
  | x :: xs, y :: ys, rest, rest', h => by
      obtain ⟨rfl, htail⟩ := eq_of_write_eq x y (stops_writeItems xs rest)
        (stops_writeItems ys rest') (List.cons.inj h).2
      obtain ⟨rfl, hrest⟩ := eq_of_writeItems_eq xs ys htail
      exact ⟨rfl, hrest⟩
  | [], y :: _, _, _, h => (bracket_ne_write y (List.cons.inj h).2).elim
  | x :: _, [], _, _, h => (bracket_ne_write x (List.cons.inj h).2.symm).elim
termination_by structural xs => xs

theorem eq_of_writeObject_eq : (ms ns : List (String × Json)) → {rest rest' : List Char} →
    write (object ms) rest = write (object ns) rest' → ms = ns ∧ rest = rest'
  | [], [], _, _, h => ⟨rfl, by simpa [write] using h⟩
  | m :: ms, n :: ns, rest, rest', h => by
      obtain ⟨rfl, htail⟩ := eq_of_writeMember_eq m n (stops_writeMembers ms rest)
        (stops_writeMembers ns rest') (List.cons.inj h).2
      obtain ⟨rfl, hrest⟩ := eq_of_writeMembers_eq ms ns htail
      exact ⟨rfl, hrest⟩
  | [], (_, _) :: _, _, _, h => by simp [write, writeMember, writeString] at h
  | (_, _) :: _, [], _, _, h => by simp [write, writeMember, writeString] at h
termination_by structural ms => ms

theorem eq_of_writeItems_eq : (xs ys : List Json) → {rest rest' : List Char} →
    writeItems xs (']' :: rest) = writeItems ys (']' :: rest') → xs = ys ∧ rest = rest'
  | [], [], _, _, h => ⟨rfl, (List.cons.inj h).2⟩
  | x :: xs, y :: ys, rest, rest', h => by
      obtain ⟨rfl, htail⟩ := eq_of_write_eq x y (stops_writeItems xs rest)
        (stops_writeItems ys rest') (List.cons.inj h).2
      obtain ⟨rfl, hrest⟩ := eq_of_writeItems_eq xs ys htail
      exact ⟨rfl, hrest⟩
  | [], _ :: _, _, _, h => by simp [writeItems] at h
  | _ :: _, [], _, _, h => by simp [writeItems] at h
termination_by structural xs => xs

theorem eq_of_writeMembers_eq : (ms ns : List (String × Json)) → {rest rest' : List Char} →
    writeMembers ms ('}' :: rest) = writeMembers ns ('}' :: rest') → ms = ns ∧ rest = rest'
  | [], [], _, _, h => ⟨rfl, (List.cons.inj h).2⟩
  | m :: ms, n :: ns, rest, rest', h => by
      obtain ⟨rfl, htail⟩ := eq_of_writeMember_eq m n (stops_writeMembers ms rest)
        (stops_writeMembers ns rest') (List.cons.inj h).2
      obtain ⟨rfl, hrest⟩ := eq_of_writeMembers_eq ms ns htail
      exact ⟨rfl, hrest⟩
  | [], _ :: _, _, _, h => by simp [writeMembers] at h
  | _ :: _, [], _, _, h => by simp [writeMembers] at h
termination_by structural ms => ms

theorem eq_of_writeMember_eq : (m n : String × Json) → {rest rest' : List Char} →
    Literal.Stops rest → Literal.Stops rest' → writeMember m rest = writeMember n rest' →
    m = n ∧ rest = rest'
  | (_, v), (_, w), _, _, hr, hr', h => by
      obtain ⟨rfl, hval⟩ := eq_of_writeString_eq h
      obtain ⟨rfl, hrest⟩ := eq_of_write_eq v w hr hr' (List.cons.inj hval).2
      exact ⟨rfl, hrest⟩
termination_by structural m => m

end

theorem text_injective {v w : Json} (h : v.text = w.text) : v = w :=
  (eq_of_write_eq v w Literal.stops_nil Literal.stops_nil (String.ofList_injective h)).1

end Json

end ReplyCache
