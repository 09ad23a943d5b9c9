import ClassGraft.Descriptor

namespace ClassGraft

theorem mem_segments {cs : List Char} {c : Char} (h : c ∈ cs) :
    c = '/' ∨ ∃ s ∈ segments cs, c ∈ s := by
  induction cs with
  | nil => cases h
  | cons d cs ih =>
    unfold segments
    by_cases hd : d = '/'
    · rw [if_pos hd]
      rcases List.mem_cons.mp h with rfl | h
      · exact .inl hd
      · rcases ih h with hc | ⟨s, hs, hc⟩
        · exact .inl hc
        · exact .inr ⟨s, List.mem_cons_of_mem _ hs, hc⟩
    · rw [if_neg hd]
      split
      next hn => exact absurd hn (segments_ne_nil cs)
      next s ss hs =>
        rw [hs] at ih
        rcases List.mem_cons.mp h with rfl | h
        · exact .inr ⟨c :: s, List.mem_cons_self, List.mem_cons_self⟩
        · rcases ih h with hc | ⟨t, ht, hc⟩
          · exact .inl hc
          · rcases List.mem_cons.mp ht with rfl | ht
            · exact .inr ⟨d :: t, List.mem_cons_self, List.mem_cons_of_mem _ hc⟩
            · exact .inr ⟨t, List.mem_cons_of_mem _ ht, hc⟩

namespace BinaryName

/-- Of the reserved characters a class name holds only slashes. -/
theorem text_unreserved (n : BinaryName) {c : Char} (h : c ∈ n.text.toList) :
    c = '/' ∨ isReserved c = false := by
  rcases mem_segments h with hc | ⟨s, hs, hc⟩
  · exact .inl hc
  · exact .inr ((n.valid s hs).2 c hc)

theorem text_no_semicolon (n : BinaryName) (c : Char) (h : c ∈ n.text.toList) : c ≠ ';' := by
  rintro rfl
  rcases n.text_unreserved h with hc | hc <;> simp [isReserved] at hc

theorem text_no_bracket (n : BinaryName) : n.text.toList.head? ≠ some '[' := by
  intro h
  rcases n.text_unreserved (List.mem_of_head? h) with hc | hc <;> simp [isReserved] at hc

theorem ofString_text (n : BinaryName) : BinaryName.ofString n.text = .ok n := by
  unfold BinaryName.ofString
  rw [dif_pos n.valid]

theorem parse_render (n : BinaryName) (rest : List Char) :
    BinaryName.parseFrom (n.text.toList ++ ';' :: rest) = .ok (n, rest) := by
  have hs : ∀ c ∈ n.text.toList, decide (c ≠ ';') = true :=
    fun c hc => decide_eq_true (n.text_no_semicolon c hc)
  unfold BinaryName.parseFrom
  rw [List.takeWhile_append_of_pos hs, List.dropWhile_append_of_pos hs,
    List.takeWhile_cons_of_neg (by simp), List.dropWhile_cons_of_neg (by simp), List.append_nil,
    String.ofList_toList]
  simp only [ofString_text]

end BinaryName

theorem MemberName.ofString_text (n : MemberName) : MemberName.ofString n.text = .ok n := by
  unfold MemberName.ofString
  rw [dif_pos n.valid]

namespace BaseType

theorem ofLetter?_letter (t : BaseType) : ofLetter? t.letter = some t := by cases t <;> rfl

theorem parse_render (t : BaseType) (rest : List Char) :
    BaseType.parseFrom (t.letter :: rest) = .ok (t, rest) := by
  unfold BaseType.parseFrom
  simp only [ofLetter?_letter]

end BaseType

theorem brackets_takeWhile (extra : Nat) {rest : List Char} (h : rest.head? ≠ some '[') :
    (List.replicate extra '[' ++ rest).takeWhile (· = '[') = List.replicate extra '[' ∧
      (List.replicate extra '[' ++ rest).dropWhile (· = '[') = rest := by
  have hb : ∀ c ∈ List.replicate extra '[', decide (c = '[') = true := by
    intro c hc
    rw [List.eq_of_mem_replicate hc]
    rfl
  rw [List.takeWhile_append_of_pos hb, List.dropWhile_append_of_pos hb]
  cases rest with
  | nil => simp
  | cons c rest =>
    have hc : c ≠ '[' := fun e => h (by rw [e]; rfl)
    simp [hc]

namespace RefType

theorem parseElement_object (extra : Nat) (n : BinaryName) (rest : List Char) :
    RefType.parseElement extra (n.render ++ rest) = .ok (.objectArray extra n, rest) := by
  have h : n.render ++ rest = 'L' :: (n.text.toList ++ ';' :: rest) := by simp [BinaryName.render]
  rw [h, RefType.parseElement, BinaryName.parse_render]
  rfl

theorem parseElement_base (extra : Nat) (t : BaseType) (rest : List Char) :
    RefType.parseElement extra (t.letter :: rest) = .ok (.primitiveArray extra t, rest) := by
  have h : t.letter ≠ 'L' := by cases t <;> decide
  unfold RefType.parseElement
  split
  next heq => exact absurd (List.cons.inj heq).1 h
  next => rw [BaseType.parse_render]; rfl

theorem parse_brackets (extra : Nat) {rest : List Char} (h : rest.head? ≠ some '[') :
    RefType.parseFrom (brackets extra ++ rest) = RefType.parseElement extra rest := by
  obtain ⟨ht, hd⟩ := brackets_takeWhile extra h
  rw [brackets, List.replicate_succ, List.cons_append, RefType.parseFrom, ht, hd,
    List.length_replicate]

theorem parse_render (t : RefType) (rest : List Char) :
    RefType.parseFrom (t.render ++ rest) = .ok (t, rest) := by
  cases t with
  | object n =>
    have h : n.render ++ rest = 'L' :: (n.text.toList ++ ';' :: rest) := by simp [BinaryName.render]
    rw [RefType.render, h, RefType.parseFrom, BinaryName.parse_render]
    rfl
  | objectArray extra n =>
    rw [RefType.render, List.append_assoc, parse_brackets extra (by simp [BinaryName.render]),
      parseElement_object]
  | primitiveArray extra t =>
    have h : t.letter ≠ '[' := by cases t <;> decide
    rw [RefType.render, List.append_assoc, parse_brackets extra (by simpa using h)]
    exact parseElement_base extra t rest

end RefType

namespace FieldType

/-- The text of a type starts neither like a base type nor like the end of a list, if the type is a
reference. -/
theorem render_reference (t : RefType) :
    ∃ c cs, t.render = c :: cs ∧ BaseType.ofLetter? c = none ∧ c ≠ ')' ∧ c ≠ 'V' := by
  cases t with
  | object n => exact ⟨'L', _, rfl, rfl, by decide, by decide⟩
  | objectArray extra n => exact ⟨'[', _, rfl, rfl, by decide, by decide⟩
  | primitiveArray extra t => exact ⟨'[', _, rfl, rfl, by decide, by decide⟩

theorem parse_render (t : FieldType) (rest : List Char) :
    FieldType.parseFrom (t.render ++ rest) = .ok (t, rest) := by
  cases t with
  | base t =>
    show FieldType.parseFrom (t.letter :: rest) = _
    unfold FieldType.parseFrom
    simp only [BaseType.ofLetter?_letter]
  | ref t =>
    have h := t.parse_render rest
    obtain ⟨c, cs, hc, hl, _⟩ := render_reference t
    rw [hc, List.cons_append] at h
    rw [FieldType.render, hc, List.cons_append]
    unfold FieldType.parseFrom
    simp only [hl, h]
    rfl

/-- No type starts like the end of a list or like the result of a method that returns nothing. -/
theorem render_head (t : FieldType) (rest : List Char) :
    (t.render ++ rest).head? ≠ some ')' ∧ (t.render ++ rest).head? ≠ some 'V' := by
  cases t with
  | base t => cases t <;> simp [FieldType.render, BaseType.letter]
  | ref t =>
    obtain ⟨c, cs, hc, _, hp, hv⟩ := render_reference t
    rw [FieldType.render, hc]
    exact ⟨by simpa using hp, by simpa using hv⟩

theorem parseList_render (ts : List FieldType) (rest : List Char) :
    FieldType.parseList (ts.flatMap FieldType.render ++ ')' :: rest) = .ok (ts, rest) := by
  induction ts with
  | nil =>
    unfold FieldType.parseList
    simp
  | cons t ts ih =>
    have ht := t.parse_render (ts.flatMap FieldType.render ++ ')' :: rest)
    have hh := (t.render_head (ts.flatMap FieldType.render ++ ')' :: rest)).1
    rw [List.flatMap_cons, List.append_assoc]
    unfold FieldType.parseList
    rw [if_neg hh]
    split
    next e he => rw [ht] at he; cases he
    next u r hu =>
      rw [ht] at hu
      cases Except.ok.inj hu
      simp only [ih]

theorem parseResult_render (t : FieldType) (rest : List Char) :
    FieldType.parseResult (t.render ++ rest) = .ok (some t, rest) := by
  have h := t.parse_render rest
  have hv := (t.render_head rest).2
  unfold FieldType.parseResult
  split
  next rest heq => exact absurd (by rw [heq]; rfl) hv
  next => simp only [h]; rfl

end FieldType

theorem MethodType.parse_render (m : MethodType) (rest : List Char) :
    MethodType.parseFrom (m.render ++ rest) = .ok (m, rest) := by
  obtain ⟨parameters, result⟩ := m
  rw [MethodType.render, List.cons_append, List.cons_append, List.append_assoc, List.cons_append,
    MethodType.parseFrom]
  simp only [FieldType.parseList_render, bind, Except.bind]
  cases result with
  | none => rfl
  | some t => simp only [FieldType.parseResult_render]; rfl

theorem BinaryName.ofString_ok {s : String} {n : BinaryName} (h : BinaryName.ofString s = .ok n) :
    n.text = s := by
  unfold ofString at h
  split at h
  next => cases h; rfl
  next =>
    split at h
    next => cases h
    next => split at h <;> cases h

theorem BinaryName.parseFrom_ok {s r : List Char} {n : BinaryName}
    (h : BinaryName.parseFrom s = .ok (n, r)) : s = n.text.toList ++ ';' :: r := by
  have hs := List.takeWhile_append_dropWhile (p := fun c : Char => decide (c ≠ ';')) (l := s)
  unfold BinaryName.parseFrom at h
  dsimp only at h
  split at h
  next => cases h
  next c rest hrest =>
    have hc : decide (c ≠ ';') = false := by
      have hhead := List.head?_dropWhile_not (fun c : Char => decide (c ≠ ';')) s
      rw [hrest] at hhead
      simpa using hhead
    split at h
    next n' hn =>
      cases h
      rw [← hs, hrest, ofString_ok hn, String.toList_ofList]
      simpa using hc
    next => cases h

theorem BaseType.ofLetter?_some {c : Char} {t : BaseType} (h : BaseType.ofLetter? c = some t) :
    t.letter = c := by
  unfold BaseType.ofLetter? at h
  split at h <;> cases h <;> rfl

theorem BaseType.parseFrom_ok {s r : List Char} {t : BaseType}
    (h : BaseType.parseFrom s = .ok (t, r)) : s = t.letter :: r := by
  cases s with
  | nil => cases h
  | cons c rest =>
    unfold BaseType.parseFrom at h
    dsimp only at h
    split at h
    next ht => cases h; rw [ofLetter?_some ht]
    next => cases h

namespace RefType

theorem parseElement_ok {extra : Nat} {s r : List Char} {t : RefType}
    (h : RefType.parseElement extra s = .ok (t, r)) : t.render ++ r = brackets extra ++ s := by
  unfold RefType.parseElement at h
  split at h
  next rest =>
    obtain ⟨⟨n, r'⟩, hn, he⟩ := except_map_ok h
    cases he
    rw [BinaryName.parseFrom_ok hn]
    simp [render, BinaryName.render]
  next =>
    obtain ⟨⟨b, r'⟩, hb, he⟩ := except_map_ok h
    cases he
    rw [BaseType.parseFrom_ok hb]
    simp [render]

theorem parseFrom_ok {s r : List Char} {t : RefType} (h : RefType.parseFrom s = .ok (t, r)) :
    s = t.render ++ r := by
  unfold RefType.parseFrom at h
  split at h
  next => cases h
  next rest =>
    obtain ⟨⟨n, r'⟩, hn, he⟩ := except_map_ok h
    cases he
    rw [BinaryName.parseFrom_ok hn]
    simp [render, BinaryName.render]
  next rest =>
    rw [parseElement_ok h, brackets, List.replicate_succ, List.cons_append]
    have hall : rest.takeWhile (· = '[') = List.replicate (rest.takeWhile (· = '[')).length '[' := by
      refine List.eq_replicate_iff.mpr ⟨rfl, fun c hc => ?_⟩
      simpa using List.all_eq_true.mp (List.all_takeWhile (p := (· = '['))) c hc
    rw [← hall, List.takeWhile_append_dropWhile]
  next => cases h

end RefType

theorem FieldType.parseFrom_ok {s r : List Char} {t : FieldType}
    (h : FieldType.parseFrom s = .ok (t, r)) : s = t.render ++ r := by
  unfold FieldType.parseFrom at h
  split at h
  next => cases h
  next c rest =>
    split at h
    next b hb =>
      cases h
      rw [render, BaseType.ofLetter?_some hb]
      rfl
    next =>
      obtain ⟨⟨u, r'⟩, hu, he⟩ := except_map_ok h
      cases he
      rw [RefType.parseFrom_ok hu]
      rfl

theorem FieldType.parseList_ok {s r : List Char} {ts : List FieldType}
    (h : FieldType.parseList s = .ok (ts, r)) : s = ts.flatMap FieldType.render ++ ')' :: r := by
  fun_induction FieldType.parseList s generalizing ts with
  | case1 s hhead =>
    cases h
    obtain ⟨rest, rfl⟩ := List.head?_eq_some_iff.mp hhead
    rfl
  | case2 => cases h
  | case3 => cases h
  | case4 s hne t rest ht hshort ts rest' hts ih =>
    cases h
    rw [FieldType.parseFrom_ok ht, ih hts, List.flatMap_cons, List.append_assoc]

theorem FieldType.parseResult_ok {s r : List Char} {t : Option FieldType}
    (h : FieldType.parseResult s = .ok (t, r)) :
    s = (match t with | none => ['V'] | some t => t.render) ++ r := by
  unfold FieldType.parseResult at h
  split at h
  next => cases h; rfl
  next =>
    obtain ⟨⟨u, r'⟩, hu, he⟩ := except_map_ok h
    cases he
    exact FieldType.parseFrom_ok hu

theorem MethodType.parseFrom_ok {s r : List Char} {m : MethodType}
    (h : MethodType.parseFrom s = .ok (m, r)) : s = m.render ++ r := by
  unfold MethodType.parseFrom at h
  split at h
  next s =>
    cases hp : FieldType.parseList s with
    | error e => rw [hp] at h; cases h
    | ok x =>
      obtain ⟨parameters, s₁⟩ := x
      rw [hp] at h
      change (FieldType.parseResult s₁ >>= _) = _ at h
      cases hr : FieldType.parseResult s₁ with
      | error e => rw [hr] at h; cases h
      | ok y =>
        obtain ⟨result, s₂⟩ := y
        rw [hr] at h
        cases h
        rw [FieldType.parseList_ok hp, FieldType.parseResult_ok hr, MethodType.render]
        simp only [List.cons_append, List.append_assoc]
        cases result <;> rfl
  next => cases h

/-- The parser takes off the front of a text just what is written for the value that it gives. -/
def TypeParser.Exact {α : Type} (p : TypeParser α) (render : α → List Char) : Prop :=
  ∀ s a rest, p s = .ok (a, rest) ↔ s = render a ++ rest

theorem parseAll_ok {α : Type} {p : TypeParser α} {s : String} {a : α} :
    parseAll p s = .ok a ↔ p s.toList = .ok (a, []) := by
  unfold parseAll
  split
  next he => simp [he]
  next hp => simp [hp]
  next hp => simp [hp]

namespace TypeParser.Exact

variable {α : Type} {p : TypeParser α} {render : α → List Char}

theorem parseAll_iff (h : TypeParser.Exact p render) {s : String} {a : α} :
    parseAll p s = .ok a ↔ String.ofList (render a) = s := by
  rw [parseAll_ok, h, List.append_nil]
  constructor
  · intro hs
    rw [← hs, String.ofList_toList]
  · rintro rfl
    rw [String.toList_ofList]

theorem ref : TypeParser.Exact RefType.parseFrom RefType.render := fun _ t rest =>
  ⟨RefType.parseFrom_ok, fun hs => hs ▸ t.parse_render rest⟩

theorem field : TypeParser.Exact FieldType.parseFrom FieldType.render := fun _ t rest =>
  ⟨FieldType.parseFrom_ok, fun hs => hs ▸ t.parse_render rest⟩

theorem method : TypeParser.Exact MethodType.parseFrom MethodType.render := fun _ m rest =>
  ⟨MethodType.parseFrom_ok, fun hs => hs ▸ m.parse_render rest⟩

end TypeParser.Exact

theorem MethodType.parse_iff {s : String} {m : MethodType} :
    MethodType.parse s = .ok m ↔ m.text = s := TypeParser.Exact.method.parseAll_iff

theorem MethodType.parse_text (m : MethodType) : MethodType.parse m.text = .ok m :=
  parse_iff.mpr rfl

theorem MethodType.text_of_parse {s : String} {m : MethodType} (h : MethodType.parse s = .ok m) :
    m.text = s := parse_iff.mp h

theorem FieldType.parse_iff {s : String} {t : FieldType} :
    FieldType.parse s = .ok t ↔ t.text = s := TypeParser.Exact.field.parseAll_iff

theorem FieldType.parse_text (t : FieldType) : FieldType.parse t.text = .ok t := parse_iff.mpr rfl

namespace RefType

theorem parse_iff {s : String} {t : RefType} : RefType.parse s = .ok t ↔ t.text = s :=
  TypeParser.Exact.ref.parseAll_iff

theorem parse_text (t : RefType) : RefType.parse t.text = .ok t := parse_iff.mpr rfl

theorem ofClassName_className (t : RefType) : RefType.ofClassName t.className = .ok t := by
  have array (u : RefType) (h : u.render.head? = some '[') :
      RefType.ofClassName u.text = .ok u := by
    unfold RefType.ofClassName
    rw [if_pos (by rwa [RefType.text, String.toList_ofList]), parse_text]
  cases t with
  | object n =>
    show RefType.ofClassName n.text = _
    unfold RefType.ofClassName
    rw [if_neg n.text_no_bracket, BinaryName.ofString_text]
    rfl
  | objectArray extra n => exact array _ (by simp [RefType.render, brackets, List.replicate_succ])
  | primitiveArray extra t =>
    exact array _ (by simp [RefType.render, brackets, List.replicate_succ])

theorem className_of_parse {s : String} {t : RefType} (h : RefType.ofClassName s = .ok t) :
    t.className = s := by
  unfold ofClassName at h
  split at h
  next hhead =>
    have htext := parse_iff.mp h
    cases t with
    | object n =>
      -- An object type is written with a letter in front.
      rw [← htext, text, String.toList_ofList] at hhead
      cases hhead
    | _ => exact htext
  next =>
    cases hn : BinaryName.ofString s with
    | error e => rw [hn] at h; cases h
    | ok n =>
      rw [hn] at h
      cases h
      exact BinaryName.ofString_ok hn

end RefType

/-- A text is read as a type if and only if it is the text of that type, whether it is the descriptor of a
method, of a field or of a reference, or the name of a class. -/
theorem descriptors_exact :
    (∀ (s : String) (m : MethodType), MethodType.parse s = .ok m ↔ m.text = s) ∧
    (∀ (s : String) (t : FieldType), FieldType.parse s = .ok t ↔ t.text = s) ∧
    (∀ (s : String) (t : RefType), RefType.parse s = .ok t ↔ t.text = s) ∧
    ∀ (s : String) (t : RefType), RefType.ofClassName s = .ok t ↔ t.className = s :=
  ⟨fun _ _ => MethodType.parse_iff, fun _ _ => FieldType.parse_iff, fun _ _ => RefType.parse_iff,
    fun _ t => ⟨RefType.className_of_parse, fun h => h ▸ t.ofClassName_className⟩⟩

/-- Names hold parentheses and the letters of types. -/
example : MethodType.parse "([[J)L(I)V;" = .ok {
    parameters := [.ref (.primitiveArray 1 .long)]
    result := some (.ref (.object ⟨"(I)V", by decide⟩)) } := by cbv

end ClassGraft
