import GoTrees.Proofs.Arguments
import GoTrees.Proofs.Packages
import GoTrees.Proofs.Resolution

/-!
# Imports that cover operands

Wherever an operand puts a package in front of a dot, at any depth of its constants, indexes, arguments and
write-backs, it also needs the import of the package. One lemma for each piece of an operand says what its text
may be followed by: from an agent, a member may be selected, and a value can stand anywhere.
-/

namespace GoTrees

open Go Text List

/-! ### Constants -/

section Constants

variable {u : Usage} {pkg native : String} {x : Context} {value : Value}

theorem selectable_self (w : Watched u.pkg) : Selectable u.Permits self.text :=
  IsWord.selectable (s := "n") (by decide) (w.permits_holder (.fixed (by decide)))

theorem selectable_runtime (w : Watched u.pkg) {item : String} (hi : IsWord item) :
    Selectable u.Permits (Expr.member "bt" item).text :=
  selectable_member (by decide) (permits_word w.other.symm) hi

theorem clean_status (w : Watched u.pkg) (s : Status) : Clean u.Permits s.expr.text := by
  cases s <;> exact (selectable_runtime w (by decide)).clean

/-- Digits around a point. -/
theorem clean_decimal (w : Watched u.pkg) (front : List Char) {back : List Char}
    (hf : ∀ c ∈ front, c.isDigit = true) (hb : ∀ c ∈ back, c.isDigit = true) :
    Clean u.Permits (.ofList (front ++ '.' :: back)) := by
  have word {cs : List Char} (h : ∀ c ∈ cs, c.isDigit = true) : IsWord (.ofList cs) :=
    allChars_ofList.mpr fun c hc => isIdentifierChar_of_isDigit (h c hc)
  have whole : String.ofList (front ++ '.' :: back) = .ofList front ++ "." ++ .ofList back :=
    String.toList_inj.mp (by simp)
  rw [whole]
  refine ((word hf).selectable (w.permits_digits ?_)).select (word hb) |>.clean
  rwa [String.toList_ofList]

theorem clean_positional (w : Watched u.pkg) (digits : Nat) (exponent : Int) :
    Clean u.Permits (Binary64.positional digits exponent) := by
  have digit : ∀ c ∈ Nat.toDigits 10 digits, c.isDigit = true :=
    fun c => Nat.isDigit_of_mem_toDigits (by decide) (by decide)
  have zeros (k : Nat) : ∀ c ∈ List.replicate k '0', c.isDigit = true :=
    fun c hc => by rw [(mem_replicate.mp hc).2]; decide
  fun_cases Binary64.positional digits exponent with
  | case1 ds k =>
    refine IsWord.clean (allChars_ofList.mpr fun c hc => isIdentifierChar_of_isDigit ?_)
    exact (mem_append.mp hc).elim (digit c) (zeros _ c)
  | case2 =>
    exact clean_decimal w _ (fun c hc => digit c (mem_of_mem_take hc))
      fun c hc => digit c (mem_of_mem_drop hc)
  | case3 => exact clean_decimal w ['0'] (by simp) (forall_mem_append.mpr ⟨zeros _, digit⟩)

theorem clean_float (w : Watched u.pkg) (f : Binary64) : Clean u.Permits f.text := by
  have signed (negative : Bool) {t : String} (h : Clean u.Permits t) :
      Clean u.Permits (Binary64.signText negative ++ t) :=
    h.marked (gaps_of_plain (by decide) (by decide))
  fun_cases Binary64.text f with
  | case1 => exact clean_bare (by decide)
  | case2 => exact signed _ (clean_bare (by decide))
  | case3 => exact signed _ (clean_bare (by decide))
  | case4 => exact signed _ (clean_positional w _ _)

theorem covered_scalar (hx : x.Beside u.pkg) (h : TypeBeside u.pkg native) (hv : value.Beside u.pkg) :
    (x.scalar native value).Covered u fun o => ∀ e ∈ o, Clean u.Permits e.text := by
  have one {e : Expr} (he : Clean u.Permits e.text) :
      ∀ e' ∈ some e, Clean u.Permits e'.text := by simpa using he
  cases value with
  | bool b => exact .pure (one (clean_bool b))
  | int n => exact .pure (one (clean_int n))
  | float f => exact .pure (one (clean_float hx.toWatched f))
  | char s => exact .pure (one (clean_rune _))
  | string s => exact .pure (one (clean_quote s))
  | member name =>
    rw [Value.Beside] at hv
    rw [Context.scalar]
    split
    · exact .bind (.usePackage (by decide)) fun _ _ => .pure (one (clean_status hx.toWatched _))
    · exact .bind (covered_goType hx h) fun type ht => .pure (one (ht.dotted hv.bare))
  | array items => exact .pure (by simp)
  | struct fields => exact .pure (by simp)

theorem covered_scalars (hx : x.Beside u.pkg) (h : TypeBeside u.pkg native) :
    ∀ {items : List Value}, Value.AllBeside u.pkg items →
      (x.scalars native items).Covered u fun es => ∀ e ∈ es, Clean u.Permits e.text
  | [], _ => .pure (by rintro _ ⟨⟩)
  | v :: vs, hv => by
      rw [Value.AllBeside] at hv
      refine .bind (covered_scalar hx h hv.1) fun o ho => .bind (covered_scalars hx h hv.2) fun es hes => ?_
      refine .pure (forall_mem_append.mpr ⟨fun e he => ho e (Option.mem_toList.mp he), hes⟩)

theorem covered_sliceLiteral (hx : x.Beside u.pkg) (h : ConstBeside u.pkg native) {items : List Value}
    (hv : Value.AllBeside u.pkg items) :
    (x.sliceLiteral native items).Covered u fun e => Clean u.Permits e.text :=
  .bind (covered_goType hx h.1) fun _ type => .bind (covered_scalars hx h.2 hv) fun _ es =>
    .pure (clean_slice type.clean es)

/-- The fields of a known struct have types beside the package. -/
theorem constBeside_fieldNative (hx : x.Beside pkg) {struct : Option StructType}
    (known : ∀ s ∈ struct, s ∈ x.catalog.structs) (field : String) :
    ConstBeside pkg (Context.fieldNative struct field) := by
  rw [Context.fieldNative]
  split
  · next p found =>
    obtain ⟨s, hs, hp⟩ := Option.bind_eq_some_iff.mp found
    exact hx.structs s (known s hs) p (mem_of_find?_eq_some hp)
  · have empty : TypeBeside pkg "" := by
      refine ⟨by rintro _ ⟨⟩, fun name mem => ?_⟩
      have same : dottedNames (GoType.ofNative [] "").toList = [[]] := by decide +kernel
      rw [same, mem_singleton] at mem
      rw [mem]
      rintro rfl
      obtain ⟨c, hc, -⟩ := hx.letter
      cases hc
    exact ⟨empty, (by decide : GoType.elementOrSelf "" = "") ▸ empty⟩

theorem structOf?_mem {s : StructType} (h : x.structOf? native = some s) : s ∈ x.catalog.structs :=
  Catalog.mem_of_findNamed? h

mutual

theorem covered_setFields (hx : x.Beside u.pkg) {target : Expr}
    (ht : Selectable u.Permits target.text) {struct : Option StructType}
    (known : ∀ s ∈ struct, s ∈ x.catalog.structs) : ∀ {fields : List (String × Value)},
    Value.FieldsBeside u.pkg fields →
      (x.setFields target struct fields).Covered u (Step.AllAllowed u.Permits)
  | [], _ => by
      rw [Context.setFields]
      exact .pure (by rintro _ ⟨⟩)
  | (field, value) :: fields, hf => by
      rw [Value.FieldsBeside] at hf
      rw [Context.setFields]
      have inner := selectable_select ht hf.1.memberName
      refine .bind (covered_setField hx inner (constBeside_fieldNative hx known field) hf.2.1)
        fun _ first => .bind (covered_setFields hx ht known hf.2.2) fun _ rest => ?_
      exact .pure (forall_mem_append.mpr ⟨first, rest⟩)

/-- Setting a field uses imported packages only. -/
theorem covered_setField (hx : x.Beside u.pkg) {target : Expr}
    (ht : Selectable u.Permits target.text) {native : String} (h : ConstBeside u.pkg native) :
    ∀ {value : Value}, value.Beside u.pkg →
      (x.setField target native value).Covered u (Step.AllAllowed u.Permits)
  | .struct fields, hv => by
      rw [Value.Beside] at hv
      rw [Context.setField]
      exact covered_setFields hx ht (fun s => structOf?_mem) hv
  | .array [], _ => by
      rw [Context.setField]
      exact .pure (by rintro _ ⟨⟩)
  | .array (item :: items), hv => by
      rw [Value.Beside] at hv
      rw [Context.setField]
      exact .bind (covered_sliceLiteral hx h hv) fun e he =>
        .pure (forall_mem_singleton.mpr (allowed_assign ht.clean he))
  | .bool _, hv | .int _, hv | .float _, hv | .char _, hv | .string _, hv | .member _, hv => by
      simp only [Context.setField]
      refine .bind (covered_scalar hx h.1 hv) fun o ho => ?_
      cases o with
      | none => exact .pure (by rintro _ ⟨⟩)
      | some e => exact .pure (forall_mem_singleton.mpr (allowed_assign ht.clean (ho e rfl)))

end

theorem covered_captureSetup (hx : x.Beside u.pkg) {target : Expr}
    (ht : Selectable u.Permits target.text) (h : ConstBeside u.pkg native) (hv : value.Beside u.pkg) :
    (x.captureSetup target native value).Covered u (Step.AllAllowed u.Permits) := by
  rw [Context.captureSetup.eq_def]
  split
  · next fields =>
    have rest (new : List Step) (hn : Step.AllAllowed u.Permits new) :
        (x.setField target native (.struct fields) >>= fun steps => pure (new ++ steps)).Covered u
          (Step.AllAllowed u.Permits) :=
      .bind (covered_setField hx ht h hv) fun _ hs => .pure (forall_mem_append.mpr ⟨hn, hs⟩)
    dsimp only
    split
    · refine .bind (covered_goType hx h.1) fun _ type => .bind (.pure ?_) rest
      exact forall_mem_singleton.mpr (allowed_assign ht.clean (clean_new type.clean))
    · exact .bind (.pure (by rintro _ ⟨⟩)) rest
  · exact covered_setField hx ht h hv

theorem covered_capture (hx : x.Beside u.pkg) (h : ConstBeside u.pkg native) (hv : value.Beside u.pkg)
    {field : String} (hf : IsWord field) : (x.capture native value field).Covered u
      fun e => Selectable u.Permits e.text := by
  have target : Selectable u.Permits (Expr.select self field).text :=
    selectable_select (selectable_self hx.toWatched) hf
  rw [Context.capture]
  refine .bind (covered_goType hx h.1) fun type ht => .bind (covered_captureSetup hx target h hv)
    fun steps hs =>
    .bind (.capture ⟨hf, ?_⟩ hs) fun _ _ => .pure target
  exact ht.clean.marked (gaps_of_plain (by decide) (by decide))

end Constants

/-! ### Variables -/

/-- The steps and the expression of an emitted operand have no qualifiers but allowed ones. -/
structure Emission.Allowed (A : List Char → Prop) (e : Emission) : Prop where
  pre : Step.AllAllowed A e.pre
  expr : Clean A e.expr.text
  post : Step.AllAllowed A e.post

section Variables

variable {A : List Char → Prop} {u : Usage} {pkg className slot : String} {x : Context}
  {e : Emission}

theorem Emission.allowed_inline {expr : Expr} (h : Clean A expr.text) : (Emission.inline expr).Allowed A :=
  ⟨by rintro _ ⟨⟩, h, by rintro _ ⟨⟩⟩

/-- The steps before any use of the value, and the expression that then names it. -/
theorem Emission.Allowed.bind (h : e.Allowed A) (hs : IsWord slot) :
    Step.AllAllowed A (e.bind slot).1 ∧ Clean A (e.bind slot).2.text := by
  rw [Emission.bind]
  split
  · exact ⟨h.pre, h.expr⟩
  · refine ⟨forall_mem_append.mpr ⟨forall_mem_append.mpr ⟨h.pre, ?_⟩, h.post⟩, hs.clean⟩
    exact forall_mem_singleton.mpr (allowed_define hs.clean h.expr)

/-- A constant is written with imported packages only, in place or captured. -/
theorem covered_constant (hx : x.Beside u.pkg) {native : String} (h : ConstBeside u.pkg native) {value : Value}
    (hv : value.Beside u.pkg) (hs : IsWord slot) :
    (x.constant native value slot).Covered u (Emission.Allowed u.Permits) := by
  have scalar : (x.scalar native value >>= fun o =>
    Pure.pure (Emission.inline (o.getD .nil))).Covered u
      (Emission.Allowed u.Permits) := by
    refine .bind (covered_scalar hx h.1 hv) fun o ho => .pure (Emission.allowed_inline ?_)
    cases o with
    | none => exact clean_nil
    | some e => exact ho e rfl
  rw [Context.constant.eq_def]
  split
  · exact .pure (Emission.allowed_inline clean_nil)
  · exact .bind (covered_capture hx h hv hs) fun _ field => .pure (Emission.allowed_inline field.clean)
  · exact .bind (covered_capture hx h hv hs) fun _ field => .pure (Emission.allowed_inline field.clean)
  · exact scalar

theorem selectable_agentVar (w : Watched u.pkg) : Selectable u.Permits agentVar.text :=
  IsWord.selectable (s := "agent") (by decide) (w.permits_holder (.fixed (by decide)))

/-- The steps that find an agent, and an expression from which its members are selected. -/
def Found (A : List Char → Prop) (r : List Step × Expr) : Prop :=
  Step.AllAllowed A r.1 ∧ Selectable A r.2.text

theorem covered_assertedAgent (w : Watched u.pkg) {agent : Expr}
    (ha : Selectable u.Permits agent.text)
    (h : Context.isAgentBase className = false → PathBeside u.pkg className) :
    (Context.assertedAgent agent className).Covered u fun e =>
      Selectable u.Permits e.text := by
  rw [Context.assertedAgent]
  split
  · exact .pure ha
  · next other =>
    exact .bind (covered_classPath (h (by simpa using other))) fun _ path =>
      .pure (selectable_asserted w.base ha ((gaps_of_plain (by decide) (by decide)).clean path.clean))

theorem covered_receiver (w : Watched u.pkg)
    (h : Context.isAgentBase className = false → PathBeside u.pkg className) :
    (Context.receiver className).Covered u fun e => Selectable u.Permits e.text :=
  covered_assertedAgent w (selectable_agentVar w) h

/-- Looking for a named agent uses imported packages only. -/
theorem covered_namedAgent (hx : x.Beside u.pkg) {agent : String} (ha : PathBeside u.pkg agent)
    (h : Context.isAgentBase className = false → PathBeside u.pkg className) (hs : IsWord slot) :
    (x.namedAgent agent className slot).Covered u (Found u.Permits) := by
  have var : IsWord ("pAgent_" ++ slot) := AllChars.append (by decide) hs
  have held : Selectable u.Permits ("pAgent_" ++ slot) :=
    var.selectable (hx.permits_holder (.agent slot))
  rw [Context.namedAgent]
  split
  · refine .bind (.usePackage (by decide)) fun _ _ => .bind (covered_assertedAgent hx.toWatched held h)
      fun e he => ?_
    refine .pure ⟨forall_mem_singleton.mpr (allowed_define var.clean ?_), he⟩
    refine (selectable_call hx.base (selectable_runtime hx.toWatched (by decide)).clean ?_).clean
    exact forall_mem_cons.mpr ⟨(selectable_agentVar hx.toWatched).clean,
      forall_mem_singleton.mpr (clean_quote agent)⟩
  · refine .bind (covered_receiver hx.toWatched fun _ => hx.agentType) fun e he => ?_
    exact .pure ⟨forall_mem_singleton.mpr
      (allowed_define var.clean (selectable_select he ha.memberName).clean), held⟩

variable {p : Property}

theorem covered_ownerOf (hx : x.Beside u.pkg) (hp : p.Beside u.pkg) (hs : IsWord slot) :
    (x.ownerOf p slot).Covered u (Found u.Permits) := by
  have asserted : Context.isAgentBase (if p.isLateBound then agentBase else p.className) = false →
      PathBeside u.pkg (if p.isLateBound then agentBase else p.className) := by
    split
    · exact fun other => absurd other (by decide)
    · exact fun _ => hp.className
  rw [Context.ownerOf]
  split
  · exact .bind (covered_receiver hx.toWatched asserted) fun _ he => .pure ⟨by rintro _ ⟨⟩, he⟩
  · next agent named => exact covered_namedAgent hx (hp.owner agent named) asserted hs

theorem clean_lookupArgs : ∀ e ∈ Context.lookupArgs p, Clean A e.text := by
  refine forall_mem_cons.mpr ⟨clean_quote _, forall_mem_singleton.mpr ?_⟩
  exact IsWord.clean fun c hc => isIdentifierChar_of_isDigit (isDigit_of_mem_toString hc)

theorem covered_checkId (w : Watched u.pkg) :
    (Context.checkId p).Covered u (Step.Allowed u.Permits) :=
  .bind (.usePackage (by decide)) fun _ _ => .pure (allowed_eval
    (selectable_call w.base (selectable_runtime w (by decide)).clean clean_lookupArgs).clean)

theorem clean_stored (w : Watched u.pkg) {owner : Expr} (ho : Selectable u.Permits owner.text)
    {type : String} (ht : Clean u.Permits type) :
    Clean u.Permits (Context.stored p owner type).text := by
  have method : IsWord (Context.getter p) := by
    rw [Context.getter]
    split <;> decide
  exact (selectable_asserted w.base
    (selectable_call w.base (selectable_select ho method).clean clean_lookupArgs) ht).clean

theorem covered_memberAccess (hp : p.Beside u.pkg) {owner : Expr}
    (ho : Selectable u.Permits owner.text) :
    (Context.memberAccess p owner).Covered u fun e => Clean u.Permits e.text := by
  rw [Context.memberAccess]
  split
  · exact .bind (covered_classPath hp.className) fun _ path => .pure (path.append hp.name.memberName).clean
  · exact .pure (selectable_select ho hp.name.memberName).clean

theorem clean_indexed {e : Expr} (he : Clean A e.text) {i : Option Expr} (hi : ∀ e ∈ i, Clean A e.text) :
    Clean A (Context.indexed e i).text := by
  cases i with
  | none => exact he
  | some i => exact clean_index he (hi i rfl)

theorem covered_readFrom (hx : x.Beside u.pkg) (hp : p.Beside u.pkg) {owner : Expr}
    (ho : Selectable u.Permits owner.text) {i : Option Expr} (hi : ∀ e ∈ i, Clean u.Permits e.text) :
    (x.readFrom p owner i).Covered u
      fun r => Step.AllAllowed u.Permits r.1 ∧ Clean u.Permits r.2.text := by
  rw [Context.readFrom]
  split
  · refine .bind (covered_checkId hx.toWatched) fun check hc =>
      .bind (covered_goType hx hp.type) fun type ht => ?_
    refine .pure ⟨forall_mem_singleton.mpr hc, clean_indexed (clean_stored hx.toWatched ho ?_) hi⟩
    exact ht.clean.marked (gaps_of_plain (by decide) (by decide))
  · exact .bind (covered_memberAccess hp ho) fun _ he => .pure ⟨by rintro _ ⟨⟩, clean_indexed he hi⟩

/-- Storing in a property uses imported packages only. -/
theorem covered_writeTo (hx : x.Beside u.pkg) (hp : p.Beside u.pkg) {owner : Expr}
    (ho : Selectable u.Permits owner.text) {i : Option Expr}
    (hi : ∀ e ∈ i, Clean u.Permits e.text) {value : Expr} (hv : Clean u.Permits value.text) :
    (x.writeTo p owner i value).Covered u (Step.AllAllowed u.Permits) := by
  have method : IsWord (Context.setter p) := by
    rw [Context.setter]
    split <;> decide
  rw [Context.writeTo]
  split
  · refine .bind (covered_checkId hx.toWatched) fun check hc => ?_
    cases i with
    | some i =>
      refine .bind (covered_goType hx hp.type) fun type ht => .pure ?_
      have element := clean_index (clean_stored (p := p) hx.toWatched ho
        ((gaps_of_plain (s := "[]") (by decide) (by decide)).clean ht.clean)) (hi i rfl)
      exact forall_mem_cons.mpr ⟨hc, forall_mem_singleton.mpr (allowed_assign element hv)⟩
    | none =>
      refine .pure (forall_mem_cons.mpr ⟨hc, forall_mem_singleton.mpr (allowed_eval ?_)⟩)
      refine (selectable_call hx.base (selectable_select ho method).clean ?_).clean
      exact forall_mem_append.mpr ⟨clean_lookupArgs, forall_mem_singleton.mpr hv⟩
  · exact .bind (covered_memberAccess hp ho) fun _ he =>
      .pure (forall_mem_singleton.mpr (allowed_assign (clean_indexed he hi) hv))

theorem IsWord.indexSlot (hs : IsWord slot) : IsWord (Context.indexSlot slot) := hs.append (by decide)

theorem Operand.DeepBeside.index {i : Variable} (h : (Operand.var (.element p i)).DeepBeside pkg) :
    (Operand.var i).DeepBeside pkg := fun inner part => h inner (.index part)

theorem Emission.Allowed.index (h : e.Allowed A) (hs : IsWord slot) :
    Step.AllAllowed A (e.bind (Context.indexSlot slot)).1 ∧
      ∀ i ∈ some (e.bind (Context.indexSlot slot)).2, Clean A i.text := by
  have bound := h.bind (IsWord.indexSlot hs)
  refine ⟨bound.1, ?_⟩
  rintro _ ⟨⟩
  exact bound.2

/-- Reading a variable uses imported packages only, at every index inside it. -/
theorem covered_readVariable (hx : x.Beside u.pkg) : ∀ {v : Variable} {slot : String},
    (Operand.var v).DeepBeside u.pkg → IsWord slot →
      (x.readVariable v slot).Covered u (Emission.Allowed u.Permits)
  | .const native value, slot, h, hs => by
      have self := h _ .self
      exact covered_constant hx self.1 self.2 hs
  | .property p, slot, h, hs => by
      have self : p.Beside u.pkg := h _ .self
      refine .bind (covered_ownerOf hx self hs) fun owner ho => ?_
      refine .bind (covered_readFrom hx self ho.2 (by simp)) fun read hr => ?_
      exact .pure ⟨forall_mem_append.mpr ⟨ho.1, hr.1⟩, hr.2, by rintro _ ⟨⟩⟩
  | .element p i, slot, h, hs => by
      have self : p.Beside u.pkg := h _ .self
      refine .bind (covered_ownerOf hx self hs) fun owner ho => ?_
      refine .bind (covered_readVariable hx h.index (IsWord.indexSlot hs)) fun index hi => ?_
      obtain ⟨steps, given⟩ := hi.index hs
      refine .bind (covered_readFrom hx self ho.2 given) fun read hr => ?_
      exact .pure ⟨forall_mem_append.mpr ⟨forall_mem_append.mpr ⟨ho.1, steps⟩, hr.1⟩, hr.2,
        by rintro _ ⟨⟩⟩

/-- Storing in a variable uses imported packages only. -/
theorem covered_writeVariable (hx : x.Beside u.pkg) {v : Variable} (h : (Operand.var v).DeepBeside u.pkg)
    {value : Expr} (hv : Clean u.Permits value.text) (hs : IsWord slot) :
    (x.writeVariable v value slot).Covered u (Step.AllAllowed u.Permits) := by
  cases v with
  | const native c => exact .pure (by rintro _ ⟨⟩)
  | property p =>
    have self : p.Beside u.pkg := h _ .self
    refine .bind (covered_ownerOf hx self hs) fun owner ho => ?_
    refine .bind (covered_writeTo hx self ho.2 (by simp) hv) fun steps hw => ?_
    exact .pure (forall_mem_append.mpr ⟨ho.1, hw⟩)
  | element p i =>
    have self : p.Beside u.pkg := h _ .self
    refine .bind (covered_ownerOf hx self hs) fun owner ho => ?_
    refine .bind (covered_readVariable hx h.index (IsWord.indexSlot hs)) fun index hi => ?_
    obtain ⟨steps, given⟩ := hi.index hs
    refine .bind (covered_writeTo hx self ho.2 given hv) fun _ hw => ?_
    exact .pure (forall_mem_append.mpr ⟨forall_mem_append.mpr ⟨ho.1, steps⟩, hw⟩)

end Variables

/-! ### Calls -/

/-- The arguments of a call and the steps around it have no qualifiers but allowed ones. -/
structure Context.Arguments.Allowed (A : List Char → Prop) (a : Context.Arguments) : Prop where
  pre : Step.AllAllowed A a.pre
  exprs : ∀ e ∈ a.exprs, Clean A e.text
  post : Step.AllAllowed A a.post

section Calls

open Context (Arguments)

variable {A : List Char → Prop} {u : Usage} {pkg slot : String} {x : Context} {p : Param}
  {e : Emission}

theorem allowed_empty : Arguments.Allowed A {} := ⟨by rintro _ ⟨⟩, by rintro _ ⟨⟩, by rintro _ ⟨⟩⟩

theorem Context.Arguments.Allowed.append {a b : Arguments} (ha : a.Allowed A) (hb : b.Allowed A) :
    (a.append b).Allowed A where
  pre := forall_mem_append.mpr ⟨ha.pre, hb.pre⟩
  exprs := forall_mem_append.mpr ⟨ha.exprs, hb.exprs⟩
  post := forall_mem_append.mpr ⟨ha.post, hb.post⟩

/-- A default has no qualifiers but those of its type. -/
theorem clean_literalFor (w : Watched u.pkg) (ty : ValueType) {type : String}
    (h : Clean u.Permits type) :
    ∀ e ∈ literalFor ty type none, Clean u.Permits e.text := by
  have word {s : String} (hs : AllChars IsBare s) :
      ∀ e ∈ some (Expr.literal s), Clean u.Permits e.text := by
    rintro _ ⟨⟩
    exact clean_bare hs
  have zero : Clean u.Permits (Expr.literal "0").text := clean_bare (by decide)
  cases ty with
  | void => rintro _ ⟨⟩
  | bool | char | integer | float | double | agent | array | unknown => exact word (by decide +kernel)
  | string =>
    rintro _ ⟨⟩
    exact clean_quote _
  | status =>
    rintro _ ⟨⟩
    exact clean_status w _
  | enum =>
    rintro _ ⟨⟩
    exact clean_converted h zero
  | struct _ isRef =>
    cases isRef with
    | true => exact word (by decide)
    | false =>
      rintro _ ⟨⟩
      exact clean_new h

theorem covered_unboundArgument (hx : x.Beside u.pkg) (h : TypeBeside u.pkg p.type) :
    (x.unboundArgument p).Covered u (Arguments.Allowed u.Permits) := by
  have literal : (x.defaultLiteral p.type none).Covered u
      fun o => ∀ e ∈ o, Clean u.Permits e.text := by
    refine .bind (covered_goType hx h) fun type ht => ?_
    have each := clean_literalFor hx.toWatched (x.catalog.classify p.type) ht.clean
    generalize literalFor (x.catalog.classify p.type) type none = literal at each ⊢
    cases literal with
    | none => exact .pure each
    | some e => exact .bind (covered_notePackages e.text) fun _ _ => .pure each
  refine .bind literal fun o ho => .pure ⟨by rintro _ ⟨⟩, forall_mem_singleton.mpr ?_, by rintro _ ⟨⟩⟩
  cases o with
  | none => exact clean_nil
  | some e => exact ho e rfl

theorem covered_unboundArguments (hx : x.Beside u.pkg) : ∀ {params : List Param},
    (∀ p ∈ params, TypeBeside u.pkg p.type) →
      (x.unboundArguments params).Covered u (Arguments.Allowed u.Permits)
  | [], _ => .pure allowed_empty
  | p :: params, h => by
      rw [forall_mem_cons] at h
      exact .bind (covered_unboundArgument hx h.1) fun _ first =>
        .bind (covered_unboundArguments hx h.2) fun _ rest => .pure (first.append rest)

theorem clean_slot_address (hs : IsWord slot) : ∀ e ∈ [Expr.address slot], Clean A e.text :=
  forall_mem_singleton.mpr (clean_address hs.clean)

theorem covered_constArgument (hx : x.Beside u.pkg) {native : String} (h : ConstBeside u.pkg native)
    {value : Value} (hv : value.Beside u.pkg) (hs : IsWord slot) :
    (x.constArgument p native value slot).Covered u (Arguments.Allowed u.Permits) := by
  refine .bind (covered_capture hx h hv hs) fun field hf => ?_
  split
  · exact .pure ⟨forall_mem_singleton.mpr (allowed_define hs.clean hf.clean), clean_slot_address hs,
      by rintro _ ⟨⟩⟩
  · exact .pure ⟨by rintro _ ⟨⟩, forall_mem_singleton.mpr hf.clean, by rintro _ ⟨⟩⟩

theorem Emission.Allowed.define (h : e.Allowed A) (hs : IsWord slot) :
    Step.AllAllowed A (e.pre ++ [.define slot e.expr]) :=
  forall_mem_append.mpr ⟨h.pre, forall_mem_singleton.mpr (allowed_define hs.clean h.expr)⟩

theorem covered_variableArgument (hx : x.Beside u.pkg) {v : Variable} (h : (Operand.var v).DeepBeside u.pkg)
    (he : e.Allowed u.Permits) (hs : IsWord slot) :
    (x.variableArgument p v e slot).Covered u (Arguments.Allowed u.Permits) := by
  have out : IsWord (slot ++ "Out") := AllChars.append hs (by decide)
  have pass (post : List Step) (hp : Step.AllAllowed u.Permits post) :
      Arguments.Allowed u.Permits
        { pre := e.pre ++ [.define slot e.expr], exprs := [.address slot], post } :=
    ⟨he.define hs, clean_slot_address hs, hp⟩
  rw [Context.variableArgument]
  split
  · dsimp only
    split
    · exact .bind (covered_writeVariable hx h hs.clean out) fun post hp => .pure (pass post hp)
    · exact .bind (.pure (by rintro _ ⟨⟩)) fun post hp => .pure (pass post hp)
  · exact .pure ⟨he.pre, forall_mem_singleton.mpr he.expr, by rintro _ ⟨⟩⟩

theorem allowed_callArgument (he : e.Allowed A) (hs : IsWord slot) :
    (Context.callArgument p e slot).Allowed A := by
  rw [Context.callArgument]
  split
  · exact ⟨forall_mem_append.mpr ⟨he.define hs, he.post⟩, clean_slot_address hs, by rintro _ ⟨⟩⟩
  · have bound := he.bind hs
    exact ⟨bound.1, forall_mem_singleton.mpr bound.2, by rintro _ ⟨⟩⟩

theorem covered_givenArgument (hx : x.Beside u.pkg) {o : Operand} (h : o.DeepBeside u.pkg) (hs : IsWord slot)
    (ho : (x.operand o slot).Covered u (Emission.Allowed u.Permits)) :
    (x.givenArgument p o slot).Covered u (Arguments.Allowed u.Permits) := by
  fun_cases Context.givenArgument x p o slot with
  | case1 native value =>
    have self := h _ .self
    exact covered_constArgument hx self.1 self.2 hs
  | case2 v => exact .bind (covered_readVariable hx h hs) fun _ he => covered_variableArgument hx h he hs
  | case3 => exact .bind ho fun _ he => .pure (allowed_callArgument he hs)

/-- A call uses imported packages only if its arguments do. -/
theorem covered_invoke (hx : x.Beside u.pkg) {m : Method} (hm : m.Beside u.pkg) {args : Arguments}
    (ha : args.Allowed u.Permits) (hs : IsWord slot) :
    (x.invoke m args slot).Covered u (Emission.Allowed u.Permits) := by
  have called (r : List Step × Expr) (hr : Found u.Permits r) :
      Emission.Allowed u.Permits
        { pre := r.1 ++ args.pre, expr := .call (.select r.2 (memberName m.name)) args.exprs,
          post := args.post } :=
    ⟨forall_mem_append.mpr ⟨hr.1, ha.pre⟩,
      (selectable_call hx.base (selectable_select hr.2 hm.name.memberName).clean ha.exprs).clean, ha.post⟩
  rw [Context.invoke]
  split
  · refine .bind (covered_receiver hx.toWatched fun _ => hm.className) fun agent hr => ?_
    exact .bind (.pure ⟨by rintro _ ⟨⟩, hr⟩) fun r hr => .pure (called r hr)
  · next agent named =>
    exact .bind (covered_namedAgent hx (hm.owner agent named) (fun _ => hm.className) hs) fun r hr =>
      .pure (called r hr)

theorem IsWord.argSlot (hs : IsWord slot) (i : Nat) : IsWord (Context.argSlot slot i) :=
  (AllChars.append hs (by decide)).append fun _ hc => isIdentifierChar_of_isDigit (isDigit_of_mem_toString hc)

/-- Arguments use imported packages only if each operand does. -/
theorem covered_arguments (hx : x.Beside u.pkg) :
    ∀ {params : List Param} {args : List (Option Operand)} {i : Nat},
    (∀ p ∈ params, TypeBeside u.pkg p.type) → IsWord slot → (∀ o, some o ∈ args → o.DeepBeside u.pkg ∧
      ∀ slot, IsWord slot → (x.operand o slot).Covered u (Emission.Allowed u.Permits)) →
    (x.arguments params args slot i).Covered u (Arguments.Allowed u.Permits)
  | [], args, i, _, _, _ => by
      rw [Context.arguments]
      exact .pure allowed_empty
  | p :: params, [], i, hp, _, _ => by
      rw [Context.arguments]
      · exact covered_unboundArguments hx hp
      · exact cons_ne_nil p params
  | p :: params, none :: args, i, hp, hs, ho => by
      rw [forall_mem_cons] at hp
      rw [Context.arguments]
      exact .bind (covered_unboundArgument hx hp.1) fun _ first =>
        .bind (covered_arguments hx hp.2 hs fun o mem => ho o (mem_cons_of_mem _ mem)) fun _ rest =>
          .pure (first.append rest)
  | p :: params, some o :: args, i, hp, hs, ho => by
      rw [forall_mem_cons] at hp
      obtain ⟨deep, covered⟩ := ho o mem_cons_self
      have at' := IsWord.argSlot hs i
      rw [Context.arguments_some]
      exact .bind (covered_givenArgument hx deep at' (covered _ at')) fun _ first =>
        .bind (covered_arguments hx hp.2 hs fun o mem => ho o (mem_cons_of_mem _ mem)) fun _ rest =>
          .pure (first.append rest)

/-- An operand whose names and types are beside the package, with all it is made of. -/
theorem covered_operand (hx : x.Beside u.pkg) {o : Operand} :
    ∀ {slot : String}, o.DeepBeside u.pkg → IsWord slot →
    (x.operand o slot).Covered u (Emission.Allowed u.Permits) := by
  induction o using Operand.nested_induction with
  | var v =>
    intro slot h hs
    rw [Context.operand]
    exact covered_readVariable hx h hs
  | call m args ih =>
    intro slot h hs
    have self : m.Beside u.pkg := h _ .self
    have each (o : Operand) (mem : some o ∈ args) : o.DeepBeside u.pkg := fun inner part =>
      h inner (.arg mem part)
    rw [Context.operand]
    exact .bind (covered_arguments hx self.params hs fun o mem => ⟨each o mem, fun _ => ih o mem (each o mem)⟩)
      fun _ ha => covered_invoke hx self ha hs

end Calls

end GoTrees
