import YcpToRuby.Proofs.Scope.Naming
import YcpToRuby.Scope.Context

/-!
# Ruby names under nesting

What a frame adds to the declared names, and what that does to the name of a variable. The number of
a variable is searched among the names that are visible at the point of use, not at its declaration.
So an inner frame that declares the numbered name of an outer variable renames that variable, and
two nested declarations can be given one number. Both are characterized exactly.
-/

set_option autoImplicit false

namespace YcpToRuby.Scope

section Lists

variable {name : String} {declared added : List String}

/-- More declared names leave a variable its name, unless they take its number. -/
theorem suffixed_append_eq_iff (h : name ∉ added) :
    suffixed name (declared ++ added) = suffixed name declared ↔
      declared.count name ≤ 1 ∨ suffixed name declared ∉ added := by
  have hcount : (declared ++ added).count name = declared.count name := by
    rw [List.count_append, List.count_eq_zero_of_not_mem h, Nat.add_zero]
  rcases Nat.lt_or_ge (declared.count name) 2 with hone | htwo
  · have hle : declared.count name ≤ 1 := by omega
    rw [suffixed_of_count_le_one hle, suffixed_of_count_le_one (hcount ▸ hle)]
    simp [hle]
  · obtain ⟨n, hn, hlow, hfree, hleast⟩ := suffixed_of_two_le_count htwo
    rw [hn, suffixed_eq_numbered_iff (by omega)]
    constructor
    · intro hall
      have hnot := hall.2.1
      exact Or.inr fun hm => hnot (List.mem_append_right _ hm)
    · intro hcase
      have hnot : numbered name n ∉ added := by
        rcases hcase with hle | hnot
        · omega
        · exact hnot
      refine ⟨by omega, ?_, ?_⟩
      · simp [hfree, hnot]
      · intro k hk hlt
        exact List.mem_append_left _ (hleast k (by omega) hlt)

/-- Two lists of declarations, one inside the other, number a name alike exactly when the shorter
one already skips every number up to the longer one's count, and the longer one leaves the number
that it ends with free. -/
theorem suffixed_eq_append_iff (hmem : name ∈ declared) (hmore : name ∈ added) :
    suffixed name declared = suffixed name (declared ++ added) ↔
      2 ≤ declared.count name ∧
      (∀ k, declared.count name ≤ k → k < (declared ++ added).count name →
        numbered name k ∈ declared) ∧
      suffixed name declared ∉ declared ++ added := by
  have hpos := List.count_pos_iff.mpr hmem
  have hadd := List.count_pos_iff.mpr hmore
  have hsum : (declared ++ added).count name = declared.count name + added.count name :=
    List.count_append
  have hmany : 2 ≤ (declared ++ added).count name := by omega
  obtain ⟨m, hm, -⟩ := suffixed_of_two_le_count hmany
  rcases Nat.lt_or_ge (declared.count name) 2 with hone | htwo
  · rw [suffixed_of_count_le_one (by omega), hm]
    constructor
    · intro h
      exact absurd h.symm (numbered_ne_self name m)
    · rintro ⟨htwo, -⟩
      omega
  · obtain ⟨n, hn, hnlow, hnfree, hnleast⟩ := suffixed_of_two_le_count htwo
    rw [hn, eq_comm, suffixed_eq_numbered_iff (by omega)]
    constructor
    · rintro ⟨hlow, hfree, -⟩
      exact ⟨htwo, fun k hk hlt => hnleast k hk (by omega), hfree⟩
    · rintro ⟨-, htaken, hfree⟩
      have hlow : (declared ++ added).count name ≤ n := by
        by_contra hlt
        exact hnfree (htaken n hnlow (by omega))
      refine ⟨hlow, hfree, fun k hk hlt => ?_⟩
      exact List.mem_append_left _ (hnleast k (by omega) hlt)

end Lists

namespace Context

theorem localFrames_ne_nil_of_isLocal {ctx : Context} {name : String} (h : ctx.isLocal name) :
    ctx.localFrames ≠ [] := by
  intro hnil
  simp [isLocal, locals, hnil] at h

/-- Inside a local scope everything that is declared further inside is local. -/
theorem locals_of_append {outer inner : Context} {rest : List Frame}
    (hframes : inner.frames = outer.frames ++ rest) (hlocal : outer.localFrames ≠ []) :
    inner.locals = outer.locals ++ rest.flatMap Frame.names := by
  have hscope : inner.localFrames = outer.localFrames ++ rest := by
    simp only [localFrames] at hlocal ⊢
    rw [hframes, List.dropWhile_append]
    simp [hlocal]
  simp [locals, hscope]

theorem locals_inside (ctx : Context) (frame : Frame) :
    (ctx.inside frame).locals = ctx.locals ++ frame.names ∨
      (ctx.inside frame).locals = ctx.locals := by
  by_cases hlocal : ctx.localFrames = []
  · have hnone : ctx.frames.dropWhile (fun frame => !frame.startsLocalScope) = [] := hlocal
    cases hstart : frame.startsLocalScope <;>
      simp [locals, localFrames, inside, List.dropWhile_append, hnone, hstart]
  · have hframes : (ctx.inside frame).frames = ctx.frames ++ [frame] := rfl
    have hadd := locals_of_append hframes hlocal
    exact Or.inl (by simpa using hadd)

theorem globals_inside (ctx : Context) (frame : Frame) :
    (ctx.inside frame).globals = ctx.globals ++ frame.names ∨
      (ctx.inside frame).globals = ctx.globals := by
  simp only [globals, globalFrames, inside, List.takeWhile_append]
  split
  · rename_i hall
    have hwhole := (List.takeWhile_prefix _).eq_of_length hall
    cases hstart : frame.startsLocalScope <;> simp [hwhole, hstart]
  · exact Or.inr rfl

variable {ctx : Context} {frame : Frame} {name : String}

theorem isLocal_eq_true_iff : ctx.isLocal name = true ↔ name ∈ ctx.locals := by
  simp [isLocal]

theorem isGlobal_eq_true_iff :
    ctx.isGlobal name = true ↔ name ∉ ctx.locals ∧ name ∈ ctx.globals := by
  simp [isGlobal, isLocal]

theorem isLocal_inside (h : name ∉ frame.names) :
    (ctx.inside frame).isLocal name = ctx.isLocal name := by
  rcases locals_inside ctx frame with hl | hl <;> simp [isLocal, hl, h]

theorem isGlobal_inside (h : name ∉ frame.names) :
    (ctx.inside frame).isGlobal name = ctx.isGlobal name := by
  rw [isGlobal, isGlobal, isLocal_inside h]
  rcases globals_inside ctx frame with hg | hg <;> simp [hg, h]

def peers (ctx : Context) (name : String) : List String :=
  if ctx.isGlobal name then ctx.globals else ctx.locals

theorem peers_inside (h : name ∉ frame.names) :
    ∃ added, name ∉ added ∧ (ctx.inside frame).peers name = ctx.peers name ++ added := by
  simp only [peers, isGlobal_inside h]
  split
  · rcases globals_inside ctx frame with hg | hg
    · exact ⟨frame.names, h, hg⟩
    · exact ⟨[], by simp, by simp [hg]⟩
  · rcases locals_inside ctx frame with hl | hl
    · exact ⟨frame.names, h, hl⟩
    · exact ⟨[], by simp, by simp [hl]⟩

def spelled (atModuleLevel : Bool) (name : String) : String :=
  if atModuleLevel then "@" ++ name else escape name

theorem spelled_injective (atModuleLevel : Bool) : Function.Injective (spelled atModuleLevel) := by
  intro a b h
  cases atModuleLevel with
  | false => exact escape_injective (by simpa [spelled] using h)
  | true => simpa [spelled] using h

theorem resolve_eq_spelled (ctx : Context) (name : String) :
    ctx.resolve name = spelled (ctx.isGlobal name) (suffixed name (ctx.peers name)) := by
  unfold resolve spelled peers
  split <;> rfl

/-- A frame that does not declare a variable leaves it its Ruby name, unless the variable has a
number and the numbered name is one of those declared around the frame or by it. -/
theorem resolve_inside_eq_iff (ctx : Context) (frame : Frame) (name : String)
    (h : name ∉ frame.names) :
    (ctx.inside frame).resolve name = ctx.resolve name ↔
      (ctx.peers name).count name ≤ 1 ∨
        suffixed name (ctx.peers name) ∉ (ctx.inside frame).peers name := by
  obtain ⟨added, hnot, hpeers⟩ := @peers_inside ctx frame name h
  rw [resolve_eq_spelled, resolve_eq_spelled, isGlobal_inside h,
    (spelled_injective _).eq_iff, hpeers, suffixed_append_eq_iff hnot]
  rcases Nat.lt_or_ge ((ctx.peers name).count name) 2 with hone | htwo
  · simp [show (ctx.peers name).count name ≤ 1 by omega]
  · obtain ⟨n, hn, -, hfree, -⟩ := suffixed_of_two_le_count htwo
    simp [hn, hfree]

def variableBlock (names : List String) : Frame :=
  .block { kind := .stmt, symbols := names.map fun name => ⟨false, .var, "integer", name⟩ }

def variableFunction (names : List String) : Frame :=
  .function "f" []
    { kind := .function, symbols := names.map fun name => ⟨false, .var, "integer", name⟩ }

def shadowed : Context :=
  { frames := [variableFunction ["i"], variableBlock ["i"]] }

theorem resolve_shadowed_inside_loop_block :
    "i" ∉ (variableBlock ["j", "i3"]).names ∧
      (shadowed.inside (variableBlock ["j", "i3"])).resolve "i" = shadowed.resolve "i" := by
  have hnot : "i" ∉ (variableBlock ["j", "i3"]).names := by decide
  refine ⟨hnot, (resolve_inside_eq_iff shadowed _ "i" hnot).mpr (Or.inr ?_)⟩
  decide +kernel

/-- A frame that declares `i2` but not `i` turns the variable `i2` of the frames around it
into `i3`. -/
theorem resolve_shadowed_not_kept :
    "i" ∉ (variableBlock ["i2"]).names ∧
      (shadowed.inside (variableBlock ["i2"])).resolve "i" ≠ shadowed.resolve "i" := by
  decide +kernel

/-- Two nested declarations of a local get one Ruby name exactly when the outer one has a number,
the names declared around it take every number up to the count of the inner one, and the number that
is left to the outer one is free for the inner one too. -/
theorem localName_eq_iff_of_nested (outer inner : Context) (name : String)
    (hnested : outer.frames <+: inner.frames) (hlocal : outer.isLocal name)
    (hmore : outer.locals.count name < inner.locals.count name) :
    outer.localName name = inner.localName name ↔
      2 ≤ outer.locals.count name ∧
      (∀ k, outer.locals.count name ≤ k → k < inner.locals.count name →
        numbered name k ∈ outer.locals) ∧
      suffixed name outer.locals ∉ inner.locals := by
  obtain ⟨rest, hframes⟩ := hnested
  have hlocals := locals_of_append hframes.symm (localFrames_ne_nil_of_isLocal hlocal)
  have hmem : name ∈ outer.locals := by simpa [isLocal] using hlocal
  have hadd : name ∈ rest.flatMap Frame.names := by
    rw [hlocals, List.count_append] at hmore
    exact List.count_pos_iff.mp (by omega)
  rw [localName, localName, escape_injective.eq_iff, hlocals]
  exact suffixed_eq_append_iff hmem hadd

def skippingNumber : Context :=
  { frames := [variableFunction ["i", "i2"], variableBlock ["i"]] }

theorem localName_skippingNumber_distinct :
    skippingNumber.frames <+:
        (skippingNumber.inside (variableBlock ["i", "i3"])).frames ∧
      skippingNumber.isLocal "i" = true ∧
      skippingNumber.locals.count "i" <
        (skippingNumber.inside (variableBlock ["i", "i3"])).locals.count "i" ∧
      skippingNumber.localName "i" ≠
        (skippingNumber.inside (variableBlock ["i", "i3"])).localName "i" := by
  have hnested : skippingNumber.frames <+:
      (skippingNumber.inside (variableBlock ["i", "i3"])).frames := List.prefix_append _ _
  have hlocal : skippingNumber.isLocal "i" = true := by decide
  have hmore : skippingNumber.locals.count "i" <
      (skippingNumber.inside (variableBlock ["i", "i3"])).locals.count "i" := by decide
  refine ⟨hnested, hlocal, hmore, fun hsame => ?_⟩
  have hfree := ((localName_eq_iff_of_nested _ _ _ hnested hlocal hmore).mp hsame).2.2
  revert hfree
  decide +kernel

/-- The second and the third `i` are both `i3`, because the second one skips the declared `i2`. -/
theorem localName_skippingNumber_shared :
    skippingNumber.frames <+: (skippingNumber.inside (variableBlock ["i"])).frames ∧
      skippingNumber.isLocal "i" = true ∧
      skippingNumber.locals.count "i" <
        (skippingNumber.inside (variableBlock ["i"])).locals.count "i" ∧
      skippingNumber.localName "i" =
        (skippingNumber.inside (variableBlock ["i"])).localName "i" := by
  decide +kernel

end Context

end YcpToRuby.Scope
