import ClassGraft.Proofs.LabelTables

namespace ClassGraft

/-- A label is placed a second time, or there is none at an offset. -/
def ClassError.IsPlacementFault : ClassError → Prop
  | .duplicateLabel _ => True
  | .malformedAttribute _ (.noLabel _) => True
  | _ => False

/-- A computation does not fail for its labels. -/
abbrev Clear {α : Type} (x : Except ClassError α) : Prop := FailsOnly (fun e => ¬e.IsPlacementFault) x

namespace Pool

variable (p : Pool) (i : PoolIndex)

theorem constant_clear : Clear (p.constant i) := by
  unfold constant
  split
  · exact .ok _
  · exact .error id

theorem utf8_clear : Clear (p.utf8 i) := by
  refine (p.constant_clear i).bind fun c _ => ?_
  cases c with
  | utf8 s => exact .ok _
  | _ => exact .error id

theorem className_clear : Clear (p.className i) := by
  refine (p.constant_clear i).bind fun c _ => ?_
  cases c with
  | classRef name => exact p.utf8_clear name
  | _ => exact .error id

theorem classType_clear : Clear (p.classType i) :=
  (p.className_clear i).bind fun _ _ => .mapError fun _ _ => id

theorem nameAndType_clear : Clear (p.nameAndType i) := by
  refine (p.constant_clear i).bind fun c _ => ?_
  cases c with
  | nameAndType name descriptor =>
    exact (p.utf8_clear name).bind fun _ _ => (p.utf8_clear descriptor).map
  | _ => exact .error id

theorem member_clear : Clear (p.member i) := by
  refine (p.constant_clear i).bind fun c _ => ?_
  cases c with
  | fieldRef owner nt | methodRef owner nt =>
    exact (p.nameAndType_clear nt).bind fun _ _ => (p.className_clear owner).map
  | _ => exact .error id

theorem parsed_clear {α : Type} (parse : String → Except DescriptorError α) (s : String) :
    Clear (parsed parse s) := .mapError fun _ _ => id

theorem memberName_clear (s : String) : Clear (memberName s) := .mapError fun _ _ => id

theorem plainClass_clear : Clear (p.plainClass i) := by
  refine (p.classType_clear i).bind fun t _ => ?_
  cases t with
  | object n => exact .ok _
  | _ => exact .error id

theorem fieldRef_clear : Clear (p.fieldRef i) :=
  (p.member_clear i).bind fun m _ => (FailsOnly.mapError fun _ _ => id).bind fun _ _ =>
    (memberName_clear m.name).bind fun _ _ => (parsed_clear _ _).map

theorem methodRef_clear : Clear (p.methodRef i) :=
  (p.member_clear i).bind fun m _ => (FailsOnly.mapError fun _ _ => id).bind fun _ _ =>
    (memberName_clear m.name).bind fun _ _ => (parsed_clear _ _).map

theorem callSite_clear : Clear (p.callSite i) := by
  refine (p.constant_clear i).bind fun c _ => ?_
  cases c with
  | invokeDynamic bootstrap nt =>
    exact (p.nameAndType_clear nt).bind fun x _ => (memberName_clear x.1).bind fun _ _ =>
      (parsed_clear _ _).map
  | _ => exact .error id

theorem literal_clear : Clear (p.literal i) := by
  refine (p.constant_clear i).bind fun c _ => ?_
  cases c with
  | integer | float | long | double | methodHandle => exact .ok _
  | string s => exact (p.utf8_clear s).map
  | classRef name => exact (p.classType_clear i).map
  | methodType d => exact (p.utf8_clear d).bind fun _ _ => (parsed_clear _ _).map
  | dynamic bootstrap nt => exact (p.nameAndType_clear nt).bind fun _ _ => (parsed_clear _ _).map
  | _ => exact .error id

end Pool

namespace CodeSite

variable (c : CodeSite)

theorem jump_clear (relative : Int) : Clear (c.jump relative) := by
  unfold jump
  dsimp only
  split
  · exact .error id
  · exact .ok _

/-- No instruction fails for labels. -/
theorem clear : c.Allows (fun _ _ => True) fun e => ¬e.IsPlacementFault where
  stay _ := trivial
  trans _ _ := trivial
  fetch _ := c.fetch_meets (fun _ => id) fun _ _ _ _ => trivial
  jump := c.jump_clear
  classType := c.pool.classType_clear
  plainClass := c.pool.plainClass_clear
  literal := c.pool.literal_clear
  fieldRef := c.pool.fieldRef_clear
  methodRef := c.pool.methodRef_clear
  callSite := c.pool.callSite_clear
  invalidOpcode _ _ := id
  switchBounds _ _ := id
  switchPairs _ := id
  unknownArrayType _ := id

end CodeSite

theorem listCode_clear {pool : Pool} {length : Nat} {s : Cursor} {seen : List (Nat × CodeItem)} :
    Clear (listCode pool length s seen) := by
  fun_induction listCode pool length s seen with
  | case1 => exact .ok _
  | case2 s seen op rest hs e he => exact .error (((CodeSite.clear _).item op).failure he)
  | case3 s seen op rest hs item t hitem _ ih => exact ih

theorem Listing.ofCode_clear (pool : Pool) (code : Bytes) : Clear (Listing.ofCode pool code) :=
  listCode_clear.map

theorem Listing.checkTargets_clear (l : Listing) (os : List (Nat × CodeItem)) :
    Clear (l.checkTargets os) := by
  induction os with
  | nil => exact .ok _
  | cons e os ih =>
    obtain ⟨o, i | br⟩ := e
    · exact ih
    · unfold checkTargets
      split
      · exact .error id
      · exact ih

theorem Listing.checkHandlers_clear (l : Listing) (es : List ExceptionEntry) :
    Clear (l.checkHandlers es) := by
  unfold checkHandlers
  split
  · exact .error id
  · exact .ok _

theorem Attribute.decode_clear (a : Attribute) (k : AttributeKind) : Clear (a.decode k) := by
  unfold decode
  split
  · exact .error id
  · exact .ok _
  · exact .error id

theorem DebugTables.ofAttributes_clear (pool : Pool) (l : Listing) (as : List Attribute) :
    Clear (ofAttributes pool l as) := by
  refine .foldlM (fun (a : Attribute) _ d => (pool.utf8_clear a.name).bind fun name _ => ?_) _
  dsimp only
  split
  · exact (a.decode_clear _).map
  split
  · exact (a.decode_clear _).map
  split
  · exact (a.decode_clear _).map
  split
  · exact (a.decode_clear _).map
  · exact .ok _

section

variable (pool : Pool) (plan : LabelPlan)

theorem Listing.resolve_clear (l : Listing) (t : RawType) : Clear (l.resolve pool plan t) := by
  unfold resolve
  cases t with
  | object c => exact (pool.classType_clear c).map
  | uninitialized o =>
    refine FailsOnly.map ?_
    dsimp only
    split
    · exact .ok _
    · exact .error id
  | _ => exact .ok _

theorem Frame.next_clear (f : Frame) (e : StackMapFrame) {resolve : RawType → Except ClassError VerifyType}
    (h : ∀ t, Clear (resolve t)) : Clear (f.next e resolve) := by
  cases e with
  | same d => exact .ok _
  | sameOne d item => exact (h item).map
  | chop d count =>
    simp only [next]
    split
    · exact .error id
    · exact .ok _
  | append d locals => exact (FailsOnly.mapM h _).map
  | full d locals stack => exact (FailsOnly.mapM h _).bind fun _ _ => (FailsOnly.mapM h _).map

theorem Listing.declaredFrames_clear (l : Listing) {resolve : RawType → Except ClassError VerifyType}
    (h : ∀ t, Clear (resolve t)) (base : Nat) (before : Frame) (es : List StackMapFrame) :
    Clear (l.declaredFrames resolve base before es) := by
  induction es generalizing base before with
  | nil => exact .ok _
  | cons e es ih =>
    simp only [declaredFrames]
    split
    · exact .error id
    · exact (before.next_clear e h).bind fun f _ => (ih _ f).map

theorem tryBlock_clear (e : ExceptionEntry) : Clear (tryBlock pool plan e) := by
  unfold tryBlock
  dsimp only
  split
  · exact .ok _
  · refine (pool.classType_clear _).bind fun t _ => ?_
    cases t with
    | object n => exact .ok _
    | _ => exact .error id

theorem localRange_clear (v : LocalEntry × Bool) : Clear (localRange pool plan v) :=
  (pool.utf8_clear _).bind fun _ _ => (pool.utf8_clear _).map

end

theorem Body.ofCode_clear (pool : Pool) (entry : Option Frame) (c : CodeAttribute) :
    Clear (Body.ofCode pool entry c) := by
  refine (Listing.ofCode_clear pool c.code).bind fun l _ => ?_
  refine (l.checkTargets_clear _).bind fun _ _ => ?_
  refine (l.checkHandlers_clear _).bind fun _ _ => ?_
  refine (DebugTables.ofAttributes_clear pool l _).bind fun d _ => ?_
  have hrest (frames : List (Nat × Frame)) (make : List TryBlock → List LocalRange → Body) : Clear (do
      let tryBlocks ← c.exceptions.mapM (tryBlock pool (LabelPlan.make l c.exceptions d))
      let locals ← d.locals.mapM (localRange pool (LabelPlan.make l c.exceptions d))
      return make tryBlocks locals : Except ClassError Body) :=
    (FailsOnly.mapM (tryBlock_clear pool _) _).bind fun _ _ => (FailsOnly.mapM (localRange_clear pool _) _).map
  split
  · exact (l.declaredFrames_clear (l.resolve_clear pool _) _ _ _).bind fun frames _ => hrest frames _
  · exact hrest [] _

end ClassGraft
