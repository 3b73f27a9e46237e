import SignalPatch.Proofs.Coordinates
import SignalPatch.Proofs.StateIdentity

/-!
# Paths of names

The names that a program gives are words of letters and digits, so neither a separator of paths nor
the mark in front of a running number occurs in them. A statement numbers only names below its own
path. Paths below the variable of one statement are therefore no paths of another statement.
-/

namespace SignalPatch

open Lowering

/-! ## Plain names -/

/-- A name without the marks that paths are made with. -/
structure IsPlain (name : String) : Prop where
  slash : '/' ∉ name.toList
  hash : '#' ∉ name.toList

instance (name : String) : Decidable (IsPlain name) :=
  decidable_of_iff ('/' ∉ name.toList ∧ '#' ∉ name.toList)
    ⟨fun h => ⟨h.1, h.2⟩, fun h => ⟨h.slash, h.hash⟩⟩

theorem Builtin.isPlain : ∀ f ∈ Builtin.table, IsPlain f.name := by
  decide +kernel

def Likeness.plain : Likeness where
  span _ _ := True
  text _ _ _ := True
  name x _ := IsPlain x
  cover _ _ := trivial
  span_of_text _ := trivial

theorem tokensOf_plain (source : String) :
    List.Forall₂ (Token.Like .plain) (tokensOf source) (tokensOf source) := by
  rw [List.forall₂_same]
  rintro ⟨kind, span⟩ ht
  refine ⟨rfl, trivial, fun _ => trivial, ?_, fun _ => trivial, fun _ => trivial⟩
  rintro name rfl
  obtain ⟨c, rest, hword⟩ := pieces_isProper _ _ _ (mem_tokensOf ht)
  constructor
  · intro hmem
    cases hword _ hmem
  · intro hmem
    cases hword _ hmem

def Statement.Plain : Statement → Prop
  | .define name _ _ _ | .assign name _ _ => IsPlain name
  | .expr _ => True

theorem Statement.Like.plain (h : Statement.Like .plain s s') : s.Plain := by
  cases h with
  | define hname => exact hname
  | assign hname => exact hname
  | expr => exact trivial

theorem statements_plain (source : String) :
    ∀ s ∈ Grammar.statements (scan source).tokens, s.Plain := by
  intro s hs
  rw [Grammar.statements, beforeFinish_scan] at hs
  obtain ⟨turn, hturn, hs⟩ := List.mem_filterMap.mp hs
  refine of_forall₂ (P := fun turn => ∀ s, turn.statement? = some s → s.Plain)
    (Grammar.turns_like (tokensOf_plain source)) (fun turn turn' h s hs => ?_) turn hturn s hs
  cases h with
  | complete h | trailing h =>
    cases hs
    exact h.plain
  | abandoned => cases hs

/-! ## Sites -/

def Site.SeesValues (R : Resolved) (site : Site) : Prop :=
  ∃ bound, site.symbols = .above R.symbols.globals bound ∧ ∀ s ∈ bound, s.isValue

theorem SiteOk.seesValues (h : SiteOk R scope site) : site.SeesValues R := by
  obtain ⟨bound, hsym, houtline, -⟩ := h.symbols
  refine ⟨bound, hsym, fun s hs => ?_⟩
  have hmem : s.outline ∈ scope.outline := houtline ▸ List.mem_map_of_mem hs
  obtain ⟨s', hs', heq⟩ := List.mem_map.mp hmem
  have hmeaning : s'.meaning = s.meaning := (congrArg Symbol.meaning heq :)
  have hvalue := h.values s' hs'
  unfold Symbol.isValue at hvalue ⊢
  rwa [← hmeaning]

theorem Site.SeesValues.calls {site : Site} (h : site.SeesValues R)
    (hm : (site.symbols.lookup callee).map Symbol.meaning = some m)
    (hsig : m.signature? = some params) :
    R.Calls callee m := by
  obtain ⟨bound, hsym, hvalues⟩ := h
  exact .of_lookup hvalues (hsym ▸ hm) hsig

theorem NormalPatch.seesValues_expansion (hR : NormalPatch R n) (site : Site) (name : String)
    (k : Nat) (params : List Parameter) (inputs : List Buffer) :
    (site.expansion R.symbols name k params inputs).SeesValues R := by
  refine ⟨_, hR.expansion_symbols site name k params inputs, fun s hs => ?_⟩
  obtain ⟨p, b, -, rfl⟩ := mem_argumentScope hs
  rfl

/-! ## Numbered paths -/

/-- The path leads from `path` through expansions to a name. -/
def Below (path : List String) (key : String) : Prop :=
  ∃ through leaf, key = Lowered.key (path ++ through) leaf ∧ IsPlain leaf ∧
    ∀ w ∈ through, ∃ name n, w = numbered name n ∧ IsPlain name

theorem Below.here (path : List String) (h : IsPlain leaf) : Below path (Lowered.key path leaf) :=
  ⟨[], leaf, by rw [List.append_nil], h, by simp⟩

theorem Below.expansion (h : Below (path ++ [numbered name n]) key) (hname : IsPlain name) :
    Below path key := by
  obtain ⟨through, leaf, rfl, hleaf, hthrough⟩ := h
  refine ⟨numbered name n :: through,
    leaf, by rw [List.append_assoc, List.singleton_append], hleaf, ?_⟩
  exact List.forall_mem_cons.mpr ⟨⟨name, n, rfl, hname⟩, hthrough⟩

/-- Every path that was numbered on the way from `l` to `l'` is below `path`. -/
def NumbersBelow (path : List String) (l l' : Lowered) : Prop :=
  ∀ key ∈ l'.issued, key ∈ l.issued ∨ Below path key

theorem NumbersBelow.of_eq (h : l'.issued = l.issued) : NumbersBelow path l l' :=
  fun _ hkey => .inl (h ▸ hkey)

theorem NumbersBelow.trans (h : NumbersBelow path l l') (h' : NumbersBelow path l' l'') :
    NumbersBelow path l l'' := by
  intro key hkey
  rcases h' key hkey with hkey | hbelow
  · exact h key hkey
  · exact .inr hbelow

theorem numbersBelow_issue (l : Lowered) (path : List String) (h : IsPlain leaf) :
    NumbersBelow path l (l.issue path leaf) := by
  intro key hkey
  rcases List.mem_append.mp hkey with hkey | hkey
  · exact .inl hkey
  · rw [List.mem_singleton.mp hkey]
    exact .inr (.here path h)

theorem numbersBelow_issueFor (l : Lowered) (path : List String) (hf : f ∈ Builtin.table) :
    NumbersBelow path l (l.issueFor path f) := by
  unfold Lowered.issueFor
  split
  · exact numbersBelow_issue l path (Builtin.isPlain f hf)
  · exact .of_eq rfl

theorem Lowered.Appends.issued_eq (h : Appends l make b l') : l'.issued = l.issued := by
  rw [h.next]

theorem Lowering.PatternLowered.issued_eq (h : PatternLowered path p span l b l') :
    l'.issued = (l.issue path "pat").issued := by
  cases h with
  | values _ hstep => exact hstep.issued_eq
  | samples _ hstep hpitch hplay =>
    exact (hplay.issued_eq.trans hpitch.issued_eq).trans hstep.issued_eq

theorem Lowering.HostParamLowered.issued_eq (h : HostParamLowered param l b l') :
    l'.issued = l.issued := by
  cases h with
  | intro hfallback hget => exact hget.issued_eq.trans hfallback.issued_eq

def Resolved.PlainNames (R : Resolved) : Prop :=
  ∀ callee f, R.Calls callee (.function f) → IsPlain f.name

mutual

/-- Lowering a node numbers only names below the path of its site. -/
theorem Lowers.numbers (hR : NormalPatch R n) (hnames : R.PlainNames) :
    Lowers R bank site i l b l' →
    site.SeesValues R → NumbersBelow site.path l l'
  | .memo _, _ => .of_eq rfl
  | .fresh _ h, hsite => (h.numbers hR hnames hsite).trans (.of_eq rfl)

theorem Makes.numbers (hR : NormalPatch R n) (hnames : R.PlainNames) : Makes R bank site i l b l' →
    site.SeesValues R → NumbersBelow site.path l l'
  | .number _ h, _ => .of_eq h.issued_eq
  | .bool _ h, _ => .of_eq h.issued_eq
  | .ident _ _ _ _, _ => .of_eq rfl
  | .binary _ hlhs hrhs h, hsite =>
    ((hlhs.numbers hR hnames hsite).trans (hrhs.numbers hR hnames hsite)).trans (.of_eq h.issued_eq)
  | .op _ _ hf _ _ hargs h, hsite =>
    ((hargs.numbers hR hnames hsite).trans (numbersBelow_issueFor _ _ hf)).trans
      (.of_eq h.issued_eq)
  | .pattern _ _ _ _ _ h, _ =>
    (numbersBelow_issue _ _ (by decide)).trans (.of_eq h.issued_eq)
  | .control _ _ _ _ _ h, _ => .of_eq h.issued_eq
  | .expand _ hm _ hargs _ _ hbody, hsite => by
    have hname := hnames _ _ (hsite.calls hm rfl)
    refine ((hargs.numbers hR hnames hsite).trans (numbersBelow_issue _ site.path hname)).trans ?_
    intro key hkey
    have hbody := hbody.numbers hR hnames (hR.seesValues_expansion ..) key hkey
    exact hbody.imp_right fun h => h.expansion hname

theorem LowersArgs.numbers (hR : NormalPatch R n) (hnames : R.PlainNames) :
    LowersArgs R bank site args l bs l' → site.SeesValues R → NumbersBelow site.path l l'
  | .nil, _ => .of_eq rfl
  | .cons h hs, hsite => (h.numbers hR hnames hsite).trans (hs.numbers hR hnames hsite)

end

/-! ## Paths of different statements -/

namespace Lowered

theorem key_singleton (w leaf : String) : key [w] leaf = w ++ "/" ++ leaf := by
  simp [key, pathText]

theorem key_cons_cons (w v : String) (path : List String) (leaf : String) :
    key (w :: v :: path) leaf = w ++ "/" ++ key (v :: path) leaf := by
  simp [key, pathText, String.intercalate_cons_cons, String.append_assoc]

theorem toList_key (w : String) (path : List String) (leaf : String) :
    ∃ tail, (key (w :: path) leaf).toList = w.toList ++ '/' :: tail := by
  cases path with
  | nil => exact ⟨leaf.toList, by simp [key_singleton]⟩
  | cons v path => exact ⟨(key (v :: path) leaf).toList, by simp [key_cons_cons]⟩

/-- The first name ends at the first separator. -/
theorem first_eq_of_key_eq (hw : '/' ∉ w.toList) (hx : '/' ∉ x.toList)
    (h : key (w :: path) leaf = key (x :: path') leaf') : w = x := by
  obtain ⟨tail, htail⟩ := toList_key w path leaf
  obtain ⟨tail', htail'⟩ := toList_key x path' leaf'
  have heq := htail.symm.trans (h ▸ htail')
  have hfirst : ∀ {cs : List Char} {more}, '/' ∉ cs →
      (cs ++ '/' :: more).takeWhile (· ≠ '/') = cs := by
    intro cs more hcs
    rw [List.takeWhile_append_of_pos]
    · simp
    · intro c hc
      simpa using ne_of_mem_of_not_mem hc hcs
  have htake := congrArg (List.takeWhile (· ≠ '/')) heq
  rw [hfirst hw, hfirst hx] at htake
  exact String.toList_inj.mp htake

theorem key_main_ne (hleaf : '/' ∉ leaf.toList) :
    key ["main"] leaf ≠ key ("main" :: x :: path) leaf' := by
  rw [key_singleton, key_cons_cons]
  intro h
  obtain ⟨tail, htail⟩ := toList_key x path leaf'
  have heq := congrArg String.toList ((String.append_right_inj _).mp h)
  rw [htail] at heq
  exact hleaf (heq ▸ by simp)

theorem second_eq_of_key_eq (hw : '/' ∉ w.toList) (hx : '/' ∉ x.toList)
    (h : key ("main" :: w :: path) leaf = key ("main" :: x :: path') leaf') : w = x := by
  rw [key_cons_cons, key_cons_cons] at h
  exact first_eq_of_key_eq hw hx ((String.append_right_inj _).mp h)

end Lowered

theorem slash_notMem_numbered (h : IsPlain name) (n : Nat) : '/' ∉ (numbered name n).toList := by
  have hdigits := notMem_toString (c := '/') rfl n
  simp_all [numbered, h.slash]

theorem Below.ne_variable (h : Below ["main"] key) (hx : IsPlain x) :
    key ≠ Lowered.key ("main" :: x :: path) leaf := by
  obtain ⟨through, leaf', rfl, hleaf, hthrough⟩ := h
  cases through with
  | nil => exact Lowered.key_main_ne hleaf.slash
  | cons w through =>
    obtain ⟨name, n, rfl, hname⟩ := hthrough w List.mem_cons_self
    intro heq
    have hw := Lowered.second_eq_of_key_eq (slash_notMem_numbered hname n) hx.slash heq
    exact hx.hash (hw ▸ by simp [numbered])

theorem Below.ne_other (h : Below ["main", y] key) (hy : IsPlain y) (hx : IsPlain x) (hne : y ≠ x) :
    key ≠ Lowered.key ("main" :: x :: path) leaf := by
  obtain ⟨through, leaf', rfl, -, -⟩ := h
  exact fun heq => hne (Lowered.second_eq_of_key_eq hy.slash hx.slash heq)

end SignalPatch
