import ClassGraft.Proofs.Outcomes
import ClassGraft.Symbol.Table

namespace ClassGraft

variable {e : Environment} {t t' : SymbolTable}

/-- Two elements are the same if each is the first of a kind that the other is of. -/
theorem find?_unique {α : Type} {p q : α → Bool} {xs : List α} {x y : α} (hx : xs.find? p = some x)
    (hy : xs.find? q = some y) (hpy : p y = true) (hqx : q x = true) : x = y := by
  induction xs with
  | nil => cases hx
  | cons a xs ih =>
    rw [List.find?_cons] at hx hy
    cases hp : p a with
    | true =>
      rw [hp] at hx
      cases hx
      rw [hqx] at hy
      exact Option.some.inj hy
    | false =>
      rw [hp] at hx
      cases hq : q a with
      | true =>
        rw [hq] at hy
        cases hy
        rw [hp] at hpy
        cases hpy
      | false =>
        rw [hq] at hy
        exact ih hx hy

theorem BinaryName.ofGiven_text {s : String} {n : BinaryName} (h : ofGiven s = .ok n) : n.text = s := by
  have h := except_mapError_ok.mp h
  rw [ofString] at h
  split at h
  · cases h
    rfl
  · split at h
    · cases h
    · split at h <;> cases h

theorem MemberName.ofGiven_text {s : String} {n : MemberName} (h : ofGiven s = .ok n) : n.text = s := by
  have h := except_mapError_ok.mp h
  rw [ofString] at h
  split at h
  · cases h
    rfl
  · cases h

theorem Environment.active_map {α β : Type} (f : α → β) (a b : α) :
    f (e.active a b) = e.active (f a) (f b) := by
  cases e <;> rfl

/-- The name of a symbol without its owner. -/
def Symbol.name : Symbol → String
  | .ofClass name | .ofMember _ _ name => name

namespace Mapping

/-- What is mapped. -/
def symbol : Mapping → Symbol
  | .ofClass canonical _ => .ofClass canonical
  | .ofMember k owner canonical _ => .ofMember k owner canonical

def canonical (x : Mapping) : String := x.symbol.name

/-- The name that a mapping gives. -/
def nameIn (e : Environment) : Mapping → String
  | .ofClass canonical minified | .ofMember _ _ canonical minified => e.active canonical minified

/-- Does it give the name to a class? -/
def isClassNamed (e : Environment) (name : String) : Mapping → Bool
  | .ofClass canonical minified => e.active canonical minified = name
  | .ofMember _ _ _ _ => false

/-- Does it give the name to a member of a class that has a name? -/
def isMemberNamed (t : SymbolTable) (k : MemberKind) (owner name : String) : Mapping → Bool
  | .ofClass _ _ => false
  | .ofMember k' owner' canonical minified =>
    k' = k && t.activeClass owner' = owner && t.environment.active canonical minified = name

def isOf (s : Symbol) (x : Mapping) : Bool := x.symbol = s

/-- The last mapping of a kind. -/
def last? (p : Mapping → Bool) (ms : List Mapping) : Option Mapping := ms.reverse.find? p

variable {p : Mapping → Bool} {ms : List Mapping} {x y : Mapping}

theorem last?_append (m : Mapping) : last? p (ms ++ [m]) = if p m then some m else last? p ms := by
  rw [last?, List.reverse_append, List.reverse_singleton, List.singleton_append, List.find?_cons]
  cases p m <;> rfl

theorem last?_passed {m : Mapping} (hm : p m = false) : last? p (ms ++ [m]) = last? p ms := by
  rw [last?_append, hm]
  rfl

theorem last?_spec (h : last? p ms = some x) : p x = true ∧ x ∈ ms :=
  ⟨List.find?_some h, List.mem_reverse.mp (List.mem_of_find?_eq_some h)⟩

theorem last?_isSome (hx : x ∈ ms) (hp : p x = true) : ∃ y, last? p ms = some y := by
  rw [← Option.isSome_iff_exists, last?, List.find?_isSome]
  exact ⟨x, List.mem_reverse.mpr hx, hp⟩

theorem isOf_iff {s : Symbol} : x.isOf s = true ↔ x.symbol = s := decide_eq_true_iff

theorem isClassNamed_iff {name : String} :
    x.isClassNamed e name = true ↔ (∃ c, x.symbol = .ofClass c) ∧ x.nameIn e = name := by
  cases x <;> simp [isClassNamed, symbol, nameIn]

theorem isMemberNamed_iff {k : MemberKind} {owner name : String} :
    x.isMemberNamed t k owner name = true ↔
      ∃ o c, x.symbol = .ofMember k o c ∧ t.activeClass o = owner ∧ x.nameIn t.environment = name := by
  cases x <;> simp [isMemberNamed, symbol, nameIn, and_assoc]

theorem nameIn_deobfuscated : x.nameIn .deobfuscated = x.canonical := by
  cases x <;> rfl

end Mapping

namespace SymbolTable

open Mapping

theorem addClass_ok {m : Mapping} (h : t.addClass m = .ok t') :
    (∃ k owner canonical minified, m = .ofMember k owner canonical minified ∧ t' = t) ∨
    ∃ canonical minified, ∃ active c : BinaryName, m = .ofClass canonical minified ∧
      active.text = t.environment.active canonical minified ∧ c.text = canonical ∧
      t' = { t with
        classes := (canonical, active) :: t.classes
        canonicalClasses := (active.text, c) :: t.canonicalClasses } := by
  cases m with
  | ofMember k owner canonical minified =>
    cases h
    exact .inl ⟨k, owner, canonical, minified, rfl, rfl⟩
  | ofClass canonical minified =>
    obtain ⟨c, hc, h⟩ := except_bind_ok.mp h
    obtain ⟨n, hn, h⟩ := except_bind_ok.mp h
    cases h
    refine .inr ⟨canonical, minified, _, c, rfl, ?_, BinaryName.ofGiven_text hc, rfl⟩
    rw [Environment.active_map BinaryName.text, BinaryName.ofGiven_text hc, BinaryName.ofGiven_text hn]

theorem addClass_members {m : Mapping} (h : t.addClass m = .ok t') :
    t'.members = t.members ∧ t'.canonicalMembers = t.canonicalMembers := by
  obtain ⟨_, _, _, _, -, rfl⟩ | ⟨_, _, _, _, -, -, -, rfl⟩ := addClass_ok h <;> exact ⟨rfl, rfl⟩

theorem addMember_ok {m : Mapping} (h : t.addMember m = .ok t') :
    (∃ canonical minified, m = .ofClass canonical minified ∧ t' = t) ∨
    ∃ k owner canonical minified, ∃ active c : MemberName, m = .ofMember k owner canonical minified ∧
      active.text = t.environment.active canonical minified ∧ c.text = canonical ∧
      t' = { t with
        members := (⟨k, owner, canonical⟩, active) :: t.members
        canonicalMembers := (⟨k, t.activeClass owner, active.text⟩, c) :: t.canonicalMembers } := by
  cases m with
  | ofClass canonical minified =>
    cases h
    exact .inl ⟨canonical, minified, rfl, rfl⟩
  | ofMember k owner canonical minified =>
    obtain ⟨o, -, h⟩ := except_bind_ok.mp h
    obtain ⟨c, hc, h⟩ := except_bind_ok.mp h
    obtain ⟨n, hn, h⟩ := except_bind_ok.mp h
    cases h
    refine .inr ⟨k, owner, canonical, minified, _, c, rfl, ?_, MemberName.ofGiven_text hc, rfl⟩
    rw [Environment.active_map MemberName.text, MemberName.ofGiven_text hc, MemberName.ofGiven_text hn]

/-- The classes are those of some mappings. -/
structure HoldsClasses (e : Environment) (t : SymbolTable) (ms : List Mapping) : Prop where
  environment : t.environment = e
  forward : ∀ name, (t.classes.lookup name).map BinaryName.text =
    (last? (isOf (.ofClass name)) ms).map (nameIn e)
  backward : ∀ name, (t.canonicalClasses.lookup name).map BinaryName.text =
    (last? (isClassNamed e name) ms).map canonical

/-- The members are those of some mappings, for a table that has all the classes. -/
structure HoldsMembers (u t : SymbolTable) (ms : List Mapping) : Prop where
  same : t.environment = u.environment ∧ t.classes = u.classes ∧ t.canonicalClasses = u.canonicalClasses
  forward : ∀ k owner name, (t.members.lookup ⟨k, owner, name⟩).map MemberName.text =
    (last? (isOf (.ofMember k owner name)) ms).map (nameIn u.environment)
  backward : ∀ k owner name, (t.canonicalMembers.lookup ⟨k, owner, name⟩).map MemberName.text =
    (last? (isMemberNamed u k owner name) ms).map canonical

/-- An entry in front is found by its key, and others as before. -/
theorem lookup_front {α β : Type} [DecidableEq α] {text : β → String} {key k : α} {b : β}
    {entries : List (α × β)} {p : Mapping → Bool} {ms : List Mapping} {m : Mapping} {f : Mapping → String}
    (hkey : p m = decide (k = key)) (hb : text b = f m)
    (h : (entries.lookup k).map text = (last? p ms).map f) :
    (((key, b) :: entries).lookup k).map text = (last? p (ms ++ [m])).map f := by
  rw [last?_append, hkey, List.lookup_cons]
  by_cases hk : k = key
  · subst hk
    simpa using hb
  · have hne : (k == key) = false := beq_eq_false_iff_ne.mpr hk
    simpa [hne, hk] using h

variable {u : SymbolTable} {ms : List Mapping} {m : Mapping}

theorem HoldsClasses.addClass (h : HoldsClasses e t ms) (ht : t.addClass m = .ok t') :
    HoldsClasses e t' (ms ++ [m]) := by
  obtain ⟨he, hforward, hbackward⟩ := h
  obtain ⟨k, owner, c, n, rfl, rfl⟩ | ⟨c, n, active, cn, rfl, hactive, hcanonical, rfl⟩ := addClass_ok ht
  · refine ⟨he, fun name => ?_, fun name => ?_⟩
    · rw [last?_passed rfl, hforward name]
    · rw [last?_passed rfl, hbackward name]
  · subst he
    refine ⟨rfl, fun name => lookup_front ?_ hactive (hforward name),
      fun name => lookup_front ?_ hcanonical (hbackward name)⟩
    · simp [isOf, symbol, eq_comm]
    · simp [isClassNamed, hactive, eq_comm]

theorem HoldsMembers.addMember (h : HoldsMembers u t ms) (ht : t.addMember m = .ok t') :
    HoldsMembers u t' (ms ++ [m]) := by
  obtain ⟨⟨he, hclasses, hsame⟩, hforward, hbackward⟩ := h
  obtain ⟨c, n, rfl, rfl⟩ | ⟨k, owner, c, n, active, cn, rfl, hactive, hcanonical, rfl⟩ := addMember_ok ht
  · refine ⟨⟨he, hclasses, hsame⟩, fun k owner name => ?_, fun k owner name => ?_⟩
    · rw [last?_passed rfl, hforward k owner name]
    · rw [last?_passed rfl, hbackward k owner name]
  · rw [he] at hactive
    refine ⟨⟨he, hclasses, hsame⟩, fun k' o name => lookup_front ?_ hactive (hforward k' o name),
      fun k' o name => lookup_front ?_ hcanonical (hbackward k' o name)⟩
    · simp [isOf, symbol, eq_comm]
    · have howner : t.activeClass owner = u.activeClass owner := by rw [activeClass, hclasses, activeClass]
      simp [isMemberNamed, hactive, howner, eq_comm, Bool.and_assoc]

/-- A table holds its mappings, the classes and the members. -/
theorem ofMappings_holds (h : ofMappings e ms = .ok t) : HoldsClasses e t ms ∧ HoldsMembers t t ms := by
  obtain ⟨u, hu, ht⟩ := except_bind_ok.mp h
  have hclasses : HoldsClasses e u ms :=
    foldlM_prefix (P := fun xs b => HoldsClasses e b xs) (fun _ _ _ _ hb => hb.addClass)
      ⟨rfl, fun _ => rfl, fun _ => rfl⟩ hu
  have hempty : u.members = [] ∧ u.canonicalMembers = [] :=
    foldlM_keeps (P := fun b => b.members = [] ∧ b.canonicalMembers = [])
      (fun _ _ _ hb ha => by rwa [(addClass_members ha).1, (addClass_members ha).2]) ⟨rfl, rfl⟩ hu
  have hmembers : HoldsMembers u t ms :=
    foldlM_prefix (P := fun xs b => HoldsMembers u b xs) (fun _ _ _ _ hb => hb.addMember)
      ⟨⟨rfl, rfl, rfl⟩, fun _ _ _ => by rw [hempty.1]; rfl, fun _ _ _ => by rw [hempty.2]; rfl⟩ ht
  obtain ⟨he, hforward, hbackward⟩ := hclasses
  obtain ⟨⟨he', hcs, hcanonical⟩, hmforward, hmbackward⟩ := hmembers
  have hnamed : ∀ k owner name, isMemberNamed u k owner name = isMemberNamed t k owner name := by
    intro k owner name
    funext x
    cases x with
    | ofClass _ _ => rfl
    | ofMember _ _ _ _ => rw [isMemberNamed, isMemberNamed, activeClass, activeClass, he', hcs]
  refine ⟨⟨he'.trans he, hcs ▸ hforward, hcanonical ▸ hbackward⟩, ⟨rfl, rfl, rfl⟩, he' ▸ hmforward, ?_⟩
  intro k owner name
  rw [hmbackward, hnamed]

variable {x y : Mapping}

/-- A class has the name that its last mapping gives. -/
theorem resolveClass_last {name : String} (h : ofMappings e ms = .ok t)
    (hy : last? (isOf (.ofClass name)) ms = some y) :
    (t.resolveClass name).map BinaryName.text = .ok (y.nameIn e) := by
  have hforward := (ofMappings_holds h).1.forward name
  rw [hy, Option.map_some] at hforward
  obtain ⟨n, hn, htext⟩ := Option.map_eq_some_iff.mp hforward
  rw [resolveClass, hn, ← htext]
  rfl

/-- A member has the name that its last mapping gives, and none if it was never mapped. -/
theorem resolveMember_iff {k : MemberKind} {owner name n : String} (h : ofMappings e ms = .ok t) :
    (t.resolveMember k owner name).map MemberName.text = .ok n ↔
      ∃ y, last? (isOf (.ofMember k owner name)) ms = some y ∧ y.nameIn e = n := by
  obtain ⟨hclasses, hmembers⟩ := ofMappings_holds h
  have hforward := hmembers.forward k owner name
  rw [hclasses.environment] at hforward
  rw [resolveMember, ← Option.map_eq_some_iff, ← hforward]
  cases t.members.lookup ⟨k, owner, name⟩ with
  | none => exact ⟨nofun, nofun⟩
  | some m =>
    exact ⟨fun hn => congrArg some (Except.ok.inj hn), fun hn => congrArg _ (Option.some.inj hn)⟩

/-- A class that a name leads back to was given that name by the last mapping to it, and has the name
that its own last mapping gives. -/
theorem canonicalClass?_mappings {b : String} {c : BinaryName} (h : ofMappings e ms = .ok t)
    (hc : t.canonicalClass? b = some c) :
    ∃ x y, last? (isClassNamed e b) ms = some x ∧ last? (isOf (.ofClass c.text)) ms = some y ∧
      x.symbol = .ofClass c.text ∧ x.nameIn e = b ∧
      (t.resolveClass c.text).map BinaryName.text = .ok (y.nameIn e) := by
  have hbackward := (ofMappings_holds h).1.backward b
  rw [show t.canonicalClasses.lookup b = some c from hc, Option.map_some] at hbackward
  obtain ⟨x, hx, hcanonical⟩ := Option.map_eq_some_iff.mp hbackward.symm
  obtain ⟨⟨name, hsymbol⟩, hname⟩ := isClassNamed_iff.mp (last?_spec hx).1
  have hsymbol : x.symbol = .ofClass c.text := by
    rw [← hcanonical, canonical, hsymbol, Symbol.name]
  obtain ⟨y, hy⟩ := last?_isSome (last?_spec hx).2 (isOf_iff.mpr hsymbol)
  exact ⟨x, y, hx, hy, hsymbol, hname, resolveClass_last h hy⟩

theorem canonicalMethod?_mappings {b n : String} {m : MemberName} (h : ofMappings e ms = .ok t)
    (hm : t.canonicalMethod? b n = some m) :
    ∃ x y o, last? (isMemberNamed t .method b n) ms = some x ∧
      last? (isOf (.ofMember .method o m.text)) ms = some y ∧
      x.symbol = .ofMember .method o m.text ∧ t.activeClass o = b ∧ x.nameIn e = n ∧
      (t.resolveMember .method o m.text).map MemberName.text = .ok (y.nameIn e) := by
  obtain ⟨hclasses, hmembers⟩ := ofMappings_holds h
  have hbackward := hmembers.backward .method b n
  rw [show t.canonicalMembers.lookup ⟨.method, b, n⟩ = some m from hm, Option.map_some] at hbackward
  obtain ⟨x, hx, hcanonical⟩ := Option.map_eq_some_iff.mp hbackward.symm
  obtain ⟨o, name, hsymbol, howner, hname⟩ := isMemberNamed_iff.mp (last?_spec hx).1
  rw [hclasses.environment] at hname
  have hsymbol : x.symbol = .ofMember .method o m.text := by
    rw [← hcanonical, canonical, hsymbol, Symbol.name]
  obtain ⟨y, hy⟩ := last?_isSome (last?_spec hx).2 (isOf_iff.mpr hsymbol)
  exact ⟨x, y, o, hx, hy, hsymbol, howner, hname, (resolveMember_iff h).mpr ⟨y, hy, rfl⟩⟩

/-- What is looked up backwards resolves forwards to the name that its last mapping gives. That is the
name it was found by exactly if the last mapping to this name is the last mapping of the symbol, too.
For a method, one of another class may have the name, if both classes are called the same. -/
theorem canonical_resolves (h : ofMappings e ms = .ok t) :
    (∀ b c, t.canonicalClass? b = some c →
      ∃ x y, last? (isClassNamed e b) ms = some x ∧ last? (isOf (.ofClass c.text)) ms = some y ∧
        x.symbol = .ofClass c.text ∧
        (t.resolveClass c.text).map BinaryName.text = .ok (y.nameIn e) ∧ (y.nameIn e = b ↔ x = y)) ∧
    ∀ b n m, t.canonicalMethod? b n = some m →
      (∃ x y o, last? (isMemberNamed t .method b n) ms = some x ∧
        last? (isOf (.ofMember .method o m.text)) ms = some y ∧
        x.symbol = .ofMember .method o m.text ∧ t.activeClass o = b ∧
        (t.resolveMember .method o m.text).map MemberName.text = .ok (y.nameIn e) ∧
        (y.nameIn e = n ↔ x = y)) ∧
      ((∃ o, t.activeClass o = b ∧ (t.resolveMember .method o m.text).map MemberName.text = .ok n) ↔
        ∃ o y, t.activeClass o = b ∧ last? (isOf (.ofMember .method o m.text)) ms = some y ∧
          y.nameIn e = n) := by
  have henvironment : t.environment = e := (ofMappings_holds h).1.environment
  refine ⟨fun b c hc => ?_, fun b n m hm => ⟨?_, exists_congr fun o => ?_⟩⟩
  · obtain ⟨x, y, hx, hy, hsymbol, hname, hresolve⟩ := canonicalClass?_mappings h hc
    refine ⟨x, y, hx, hy, hsymbol, hresolve, fun hb => ?_, fun hxy => hxy ▸ hname⟩
    have hyname : y.isClassNamed e b = true :=
      isClassNamed_iff.mpr ⟨⟨c.text, isOf_iff.mp (last?_spec hy).1⟩, hb⟩
    exact find?_unique hx hy hyname (isOf_iff.mpr hsymbol)
  · obtain ⟨x, y, o, hx, hy, hsymbol, howner, hname, hresolve⟩ := canonicalMethod?_mappings h hm
    refine ⟨x, y, o, hx, hy, hsymbol, howner, hresolve, fun hn => ?_, fun hxy => hxy ▸ hname⟩
    have hyname : y.isMemberNamed t .method b n = true :=
      isMemberNamed_iff.mpr
        ⟨o, m.text, isOf_iff.mp (last?_spec hy).1, howner, henvironment.symm ▸ hn⟩
    exact find?_unique hx hy hyname (isOf_iff.mpr hsymbol)
  · rw [resolveMember_iff h]
    exact exists_and_left.symm

/-- A class and a method that were mapped before under other names. -/
def renamed : List Mapping :=
  [.ofClass "a/A" "x", .ofMember .method "a/A" "run" "b", .ofClass "a/A" "y",
    .ofMember .method "a/A" "run" "c"]

/-- The old names still lead back to them. -/
theorem renamed_resolves : ∃ t c m, ofMappings .obfuscated renamed = .ok t ∧
    t.canonicalClass? "x" = some c ∧ (t.resolveClass c.text).map BinaryName.text = .ok "y" ∧
    t.canonicalMethod? "y" "b" = some m ∧
    ¬ ∃ o, t.activeClass o = "y" ∧
      (t.resolveMember .method o m.text).map MemberName.text = .ok "b" := by
  have hbuilt : (ofMappings .obfuscated renamed).toOption.any (fun t =>
      (t.canonicalClass? "x").any (fun c => c.text = "a/A") &&
        (t.canonicalMethod? "y" "b").any fun m => m.text = "run") = true := by
    decide +kernel
  obtain ⟨t, ht, hseen⟩ := toOption_any.mp hbuilt
  obtain ⟨hclass, hmethod⟩ := Bool.and_eq_true_iff.mp hseen
  obtain ⟨c, hc, hctext⟩ := (Option.any_eq_true _ _).mp hclass
  obtain ⟨m, hm, hmtext⟩ := (Option.any_eq_true _ _).mp hmethod
  obtain ⟨hclasses, hmethods⟩ := canonical_resolves ht
  refine ⟨t, c, m, ht, hc, ?_, hm, ?_⟩
  · obtain ⟨x, y, -, hy, -, hresolve, -⟩ := hclasses "x" c hc
    rw [of_decide_eq_true hctext] at hy
    cases hy
    exact hresolve
  · rw [(hmethods "y" "b" m hm).2]
    rintro ⟨o, y, -, hy, hname⟩
    rw [of_decide_eq_true hmtext] at hy
    have hlast : ∀ x ∈ renamed, x.nameIn .obfuscated = "b" → x = .ofMember .method "a/A" "run" "b" := by
      decide
    have hold := hlast y (last?_spec hy).2 hname
    subst hold
    have howner : o = "a/A" := (Symbol.ofMember.inj (isOf_iff.mp (last?_spec hy).1)).2.1.symm
    subst howner
    revert hy
    decide

/-- Where no symbol is given two names, both directions agree. -/
theorem canonical_agrees (h : ofMappings e ms = .ok t)
    (hone : ∀ x ∈ ms, ∀ y ∈ ms, x.symbol = y.symbol → x.nameIn e = y.nameIn e) :
    (∀ b c, t.canonicalClass? b = some c → (t.resolveClass c.text).map BinaryName.text = .ok b) ∧
    ∀ b n m, t.canonicalMethod? b n = some m →
      ∃ o, t.activeClass o = b ∧ (t.resolveMember .method o m.text).map MemberName.text = .ok n := by
  refine ⟨fun b c hc => ?_, fun b n m hm => ?_⟩
  · obtain ⟨x, y, hx, hy, hsymbol, hname, hresolve⟩ := canonicalClass?_mappings h hc
    have hsame : x.symbol = y.symbol := hsymbol.trans (isOf_iff.mp (last?_spec hy).1).symm
    rw [hresolve, ← hone x (last?_spec hx).2 y (last?_spec hy).2 hsame, hname]
  · obtain ⟨x, y, o, hx, hy, hsymbol, howner, hname, hresolve⟩ := canonicalMethod?_mappings h hm
    have hsame : x.symbol = y.symbol := hsymbol.trans (isOf_iff.mp (last?_spec hy).1).symm
    refine ⟨o, howner, ?_⟩
    rw [hresolve, ← hone x (last?_spec hx).2 y (last?_spec hy).2 hsame, hname]

/-- Names that are not minified are those of the symbols themselves. -/
theorem canonical_agrees_deobfuscated (h : ofMappings .deobfuscated ms = .ok t) :
    (∀ b c, t.canonicalClass? b = some c → (t.resolveClass c.text).map BinaryName.text = .ok b) ∧
    ∀ b n m, t.canonicalMethod? b n = some m →
      ∃ o, t.activeClass o = b ∧ (t.resolveMember .method o m.text).map MemberName.text = .ok n := by
  refine canonical_agrees h fun x _ y _ hsymbol => ?_
  rw [nameIn_deobfuscated, nameIn_deobfuscated, canonical, hsymbol, canonical]

end SymbolTable

end ClassGraft
