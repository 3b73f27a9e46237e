import SignalPatch.Symbol

/-!
# Looking names up

What a look-up finds bears the name that was looked for and stands in one of the open scopes. Two
tables that differ only in buffers and spans answer every look-up with the same meaning
(`lookup_meaning_congr`), and stay so when the same names are defined in both.
-/

namespace SignalPatch

/-! ## Scopes -/

namespace Scope

theorem named?_eq_some {scope : Scope} (h : scope.named? n = some s) : s ∈ scope ∧ s.name = n := by
  obtain ⟨hf, hn⟩ := Option.filter_eq_some_iff.mp h
  exact ⟨List.mem_of_find?_eq_some hf, by simpa using hn⟩

theorem find?_cons (scope : Scope) (s : Symbol) (hash : UInt32) :
    Scope.find? (s :: scope) hash = if s.hash = hash then some s else scope.find? hash := by
  by_cases h : s.hash = hash <;> simp [Scope.find?, h]

def add (scope : Scope) (s : Symbol) : Scope :=
  if (scope.find? s.hash).isSome then scope else s :: scope

theorem mem_add {scope : Scope} (h : s ∈ scope.add s') : s = s' ∨ s ∈ scope := by
  unfold add at h
  split at h
  · exact .inr h
  · exact List.mem_cons.mp h

/-- Fingerprints tell the symbols apart, and each stands under the fingerprint of its name. -/
structure Filed (scope : Scope) : Prop where
  distinct : scope.Pairwise (·.hash ≠ ·.hash)
  hash : ∀ s ∈ scope, s.hash = Text.fingerprint s.name

namespace Filed

theorem nil : Filed [] := ⟨.nil, by simp⟩

theorem cons {scope : Scope} (h : Filed scope) (hs : s.hash = Text.fingerprint s.name)
    (hfree : scope.find? s.hash = none) : Filed (s :: scope) := by
  refine ⟨List.pairwise_cons.mpr ⟨fun s' hs' heq => ?_, h.distinct⟩, fun s' hs' => ?_⟩
  · have := List.find?_eq_none.mp hfree s' hs'
    simp [heq] at this
  · rcases List.mem_cons.mp hs' with rfl | hs'
    · exact hs
    · exact h.hash s' hs'

theorem add {scope : Scope} (h : Filed scope) (hs : s.hash = Text.fingerprint s.name) :
    Filed (scope.add s) := by
  unfold Scope.add
  split
  · exact h
  · rename_i hfree
    exact h.cons hs (by simpa using hfree)

theorem find?_mem {scope : Scope} (h : scope.Pairwise (·.hash ≠ ·.hash)) (hs : s ∈ scope) :
    scope.find? s.hash = some s := by
  induction scope with
  | nil => simp at hs
  | cons s' scope ih =>
    obtain ⟨hhead, htail⟩ := List.pairwise_cons.mp h
    rw [Scope.find?_cons]
    rcases List.mem_cons.mp hs with rfl | hs
    · simp
    · rw [if_neg (hhead s hs), ih htail hs]

theorem named?_mem {scope : Scope} (h : Filed scope) (hs : s ∈ scope) :
    scope.named? s.name = some s := by
  unfold named?
  rw [← h.hash s hs, find?_mem h.distinct hs]
  simp

end Filed

end Scope

/-! ## Scopes with other names -/

/-- The values of the first scope stand in the second under their other names. -/
def Scope.Answers (name : String → String) (scope scope' : Scope) : Prop :=
  ∀ x s, scope.named? x = some s → ∃ s', scope'.named? (name x) = some s' ∧ s'.isValue ∧
    s'.buffer = s.buffer

theorem Scope.Answers.add {scope scope' : Scope} (h : Answers name scope scope')
    (hname : s'.name = name s.name) (hhash : s'.hash = Text.fingerprint s'.name)
    (hfree : scope'.find? s'.hash = none) (hvalue : s'.isValue) (hbuffer : s'.buffer = s.buffer) :
    Answers name (scope.add s) (scope'.add s') := by
  have hadd : scope'.add s' = s' :: scope' := if_neg (by simp [hfree])
  -- what the second scope has is not hidden
  have hkept : ∀ {x s₁}, scope.named? x = some s₁ →
      ∃ s₁', (scope'.add s').named? (name x) = some s₁' ∧ s₁'.isValue ∧ s₁'.buffer = s₁.buffer := by
    intro x s₁ hs₁
    obtain ⟨s₁', hs₁', hrest⟩ := h x s₁ hs₁
    refine ⟨s₁', ?_, hrest⟩
    rw [hadd, named?, find?_cons, if_neg fun heq => ?_]
    · exact hs₁'
    · rw [named?, ← heq, hfree] at hs₁'
      cases hs₁'
  intro x s₁ hs₁
  unfold Scope.add at hs₁
  split at hs₁
  · exact hkept hs₁
  · by_cases hx : s.hash = Text.fingerprint x
    · rw [named?, find?_cons, if_pos hx, Option.filter_eq_some_iff] at hs₁
      obtain ⟨⟨⟩, hsx⟩ := hs₁
      have hx' : s'.name = name x := by rw [hname, eq_of_beq hsx]
      refine ⟨s', ?_, hvalue, hbuffer⟩
      rw [hadd, named?, find?_cons, if_pos (hx' ▸ hhash)]
      simp [Option.filter, hx']
    · rw [named?, find?_cons, if_neg hx] at hs₁
      exact hkept hs₁

/-! ## Tables with one open scope -/

namespace SymbolTable

theorem current_insert (t : SymbolTable) (s : Symbol) : (t.insert s).current = s :: t.current := by
  unfold insert current
  cases t.inner <;> rfl

theorem lookup_mem {t : SymbolTable} (h : t.lookup n = some s) :
    s.name = n ∧ ∃ scope ∈ t.scopes, s ∈ scope := by
  obtain ⟨scope, hm, hs⟩ := List.exists_of_findSome?_eq_some h
  obtain ⟨hin, hn⟩ := Scope.named?_eq_some hs
  exact ⟨hn, scope, hm, hin⟩

/-- One open scope above the global one. -/
def above (globals : Scope) (scope : Scope) : SymbolTable := ⟨[scope], globals⟩

theorem push_eq_above (G : Scope) : push ⟨[], G⟩ = above G [] := rfl

@[simp] theorem pop_above (G scope : Scope) : pop (above G scope) = ⟨[], G⟩ := rfl

theorem lookup_above (G scope : Scope) (n : String) :
    (above G scope).lookup n = (scope.named? n).or (G.named? n) := by
  simp [lookup, scopes, above, List.findSome?_cons]
  cases scope.named? n <;> cases G.named? n <;> simp

theorem mem_of_lookup_above (h : (above G scope).lookup n = some s) :
    s.name = n ∧ (s ∈ scope ∨ s ∈ G) := by
  obtain ⟨hn, sc, hsc, hin⟩ := lookup_mem h
  refine ⟨hn, ?_⟩
  simp only [scopes, above, List.singleton_append, List.mem_cons, List.not_mem_nil, or_false] at hsc
  rcases hsc with rfl | rfl
  · exact .inl hin
  · exact .inr hin

theorem define?_above (G scope : Scope) (s : Symbol) :
    (above G scope).define? s =
      if (scope.find? s.hash).isSome then none else some (above G (s :: scope)) := rfl

theorem define_above (G scope : Scope) (s : Symbol) :
    (above G scope).define s = above G (scope.add s) := by
  unfold define Scope.add
  rw [define?_above]
  split <;> rfl

theorem lookup_define_above (h : ((above G scope).define s).lookup n = some s') :
    s' = s ∨ (above G scope).lookup n = some s' := by
  rw [define_above, Scope.add] at h
  split at h
  · exact .inr h
  · rename_i hfree
    rw [lookup_above, Scope.named?, Scope.find?_cons] at h
    rw [lookup_above, Scope.named?]
    split at h
    · rename_i hhash
      rw [Option.not_isSome_iff_eq_none, hhash] at hfree
      rw [hfree]
      by_cases hname : s.name = n
      · exact .inl (by simpa [Option.filter, hname] using h.symm)
      · exact .inr (by simpa [Option.filter, hname] using h)
    · exact .inr h

theorem foldl_define_above (f : α → Symbol) (xs : List α) (G scope : Scope) :
    xs.foldl (fun t x => t.define (f x)) (above G scope) =
      above G (xs.foldl (fun scope x => scope.add (f x)) scope) := by
  induction xs generalizing scope with
  | nil => rfl
  | cons x xs ih => rw [List.foldl_cons, define_above, ih, List.foldl_cons]

end SymbolTable

theorem Scope.mem_foldl_add {f : α → Symbol} {xs : List α} {scope : Scope}
    (h : s ∈ xs.foldl (fun scope x => scope.add (f x)) scope) :
    (∃ x ∈ xs, s = f x) ∨ s ∈ scope := by
  induction xs generalizing scope with
  | nil => exact .inr h
  | cons x xs ih =>
    rcases ih h with ⟨y, hy, rfl⟩ | h
    · exact .inl ⟨y, List.mem_cons_of_mem _ hy, rfl⟩
    · rcases Scope.mem_add h with rfl | h
      · exact .inl ⟨x, by simp, rfl⟩
      · exact .inr h

/-! ## Tables up to buffers and spans -/

/-- A symbol without its buffer and the place of its definition. -/
def Symbol.outline (s : Symbol) : Symbol := { s with buffer := .unused, definedAt := none }

def Scope.outline (scope : Scope) : Scope := scope.map Symbol.outline

namespace Scope

theorem find?_outline (scope : Scope) (hash : UInt32) :
    scope.outline.find? hash = (scope.find? hash).map Symbol.outline := by
  simp only [find?, outline, List.find?_map]
  rfl

theorem named?_outline (scope : Scope) (n : String) :
    scope.outline.named? n = (scope.named? n).map Symbol.outline := by
  unfold named?
  rw [find?_outline]
  cases h : scope.find? (Text.fingerprint n) with
  | none => rfl
  | some s =>
    by_cases hn : s.name = n <;> simp [Option.filter, Symbol.outline, hn]

theorem add_outline {scope scope' : Scope} (h : scope.outline = scope'.outline)
    (hs : s.outline = s'.outline) : (scope.add s).outline = (scope'.add s').outline := by
  have hhash : s.hash = s'.hash := by simpa [Symbol.outline] using congrArg Symbol.hash hs
  have hfind : (scope.find? s.hash).isSome = (scope'.find? s'.hash).isSome := by
    have h₁ := find?_outline scope s.hash
    have h₂ := find?_outline scope' s'.hash
    rw [h, hhash, h₂] at h₁
    simpa [hhash] using (congrArg Option.isSome h₁).symm
  unfold add
  rw [hfind]
  split
  · exact h
  · simp only [outline, List.map_cons, hs] at h ⊢
    rw [h]

end Scope

theorem SymbolTable.lookup_meaning_congr {scope scope' : Scope} (h : scope.outline = scope'.outline)
    (G : Scope) (n : String) :
    ((above G scope).lookup n).map Symbol.meaning =
      ((above G scope').lookup n).map Symbol.meaning := by
  have h₁ := Scope.named?_outline scope n
  rw [h, Scope.named?_outline] at h₁
  rw [lookup_above, lookup_above]
  cases hs : scope.named? n <;> cases hs' : scope'.named? n <;> rw [hs, hs'] at h₁ <;> simp at h₁ ⊢
  exact (congrArg Symbol.meaning h₁).symm

end SignalPatch
