import Mathlib.Data.List.Forall2
import PackageManifest.Package.Info

/-!
# Choosing products

Main statement: `selectProducts_selects`. Products are chosen exactly if every request names one,
the case of ASCII letters left aside. A request stands for the first product that it names, so a
product is chosen by its own name unless one that is listed before it differs from it in case only.
-/

namespace PackageManifest.Package

variable {info : Info} {wanted name : String} {requested names : List String} {e : SelectionError}

theorem sameName_iff {a b : String} :
    sameName a b = true ↔ a.toList.map Char.toLower = b.toList.map Char.toLower := beq_iff_eq

/-- Whether a request names a product of a package. -/
def Offers (info : Info) (wanted : String) : Prop :=
  ∃ product ∈ info.products, sameName product.name wanted = true

/-- `name` is chosen for the request `wanted`. -/
structure Selects (info : Info) (wanted name : String) : Prop where
  sameName : sameName name wanted = true
  /-- Of the products that are named, the first one is chosen. -/
  first : ∃ before product after, info.products = before ++ product :: after ∧
    product.name = name ∧ ∀ other ∈ before, Package.sameName other.name wanted = false
  /-- A product is chosen by its own name, unless one before it differs from it in case only. -/
  own : ∀ before product after, info.products = before ++ product :: after →
    product.name = wanted →
    (∀ other ∈ before, Package.sameName other.name wanted = true → other.name = wanted) →
    name = wanted

/-! ## One request -/

theorem selects_of_find? {product : Product}
    (h : (info.products.find? fun p => sameName p.name wanted) = some product) :
    Selects info wanted product.name := by
  obtain ⟨hsame, before, after, hsplit, hbefore⟩ := List.find?_eq_some_iff_append.1 h
  have hbefore : ∀ other ∈ before, sameName other.name wanted = false := by
    simpa using hbefore
  refine ⟨hsame, ⟨before, product, after, hsplit, rfl, hbefore⟩, ?_⟩
  intro before' own after' hsplit' hown hbefore'
  rw [hsplit', List.find?_append] at h
  cases hfind : before'.find? fun p => sameName p.name wanted with
  | some other =>
    rw [hfind, Option.some_or] at h
    obtain rfl := Option.some.inj h
    exact hbefore' other (List.mem_of_find?_eq_some hfind) hsame
  | none =>
    have hself : sameName own.name wanted = true := sameName_iff.2 (by rw [hown])
    simp only [hfind, Option.none_or, List.find?_cons, hself, Option.some.injEq] at h
    rw [← h, hown]

theorem selectProduct_cases (info : Info) (wanted : String) :
    (Offers info wanted ∧ ∃ name, selectProduct info wanted = .ok name ∧
      Selects info wanted name) ∨
    (¬Offers info wanted ∧
      selectProduct info wanted = .error (.invalidProduct wanted info.name info.productNames)) := by
  rw [selectProduct]
  cases hfind : info.products.find? fun p => sameName p.name wanted with
  | some product =>
    have hsame := List.find?_some hfind
    exact .inl ⟨⟨product, List.mem_of_find?_eq_some hfind, hsame⟩, product.name, rfl,
      selects_of_find? hfind⟩
  | none =>
    refine .inr ⟨?_, rfl⟩
    rintro ⟨product, hmem, hsame⟩
    exact List.find?_eq_none.1 hfind product hmem hsame

theorem selects_of_selectProduct (h : selectProduct info wanted = .ok name) :
    Offers info wanted ∧ Selects info wanted name := by
  rcases selectProduct_cases info wanted with ⟨hoffers, name', hname, hselects⟩ | ⟨_, herror⟩
  · obtain rfl := Except.ok.inj (hname.symm.trans h)
    exact ⟨hoffers, hselects⟩
  · cases herror.symm.trans h

theorem invalid_of_selectProduct (h : selectProduct info wanted = .error e) :
    ¬Offers info wanted ∧ e = .invalidProduct wanted info.name info.productNames := by
  rcases selectProduct_cases info wanted with ⟨_, name, hname, _⟩ | ⟨hoffers, herror⟩
  · cases hname.symm.trans h
  · exact ⟨hoffers, (Except.error.inj (herror.symm.trans h)).symm⟩

/-! ## All requests -/

theorem selectEach_eq_ok (h : selectEach info requested = .ok names) :
    List.Forall₂ (fun wanted name => Offers info wanted ∧ Selects info wanted name)
      requested names := by
  induction requested generalizing names with
  | nil =>
    cases h
    exact .nil
  | cons wanted more ih =>
    rw [selectEach] at h
    cases hfirst : selectProduct info wanted with
    | error e => simp [hfirst] at h
    | ok name =>
      cases hmore : selectEach info more with
      | error e => simp [hfirst, hmore] at h
      | ok names' =>
        simp only [hfirst, hmore, Except.ok.injEq] at h
        rw [← h]
        exact .cons (selects_of_selectProduct hfirst) (ih hmore)

/-- The first request that names nothing stops the choice. -/
theorem selectEach_eq_error (h : selectEach info requested = .error e) :
    ∃ before wanted after, requested = before ++ wanted :: after ∧
      (∀ w ∈ before, Offers info w) ∧ ¬Offers info wanted ∧
      e = .invalidProduct wanted info.name info.productNames := by
  induction requested with
  | nil => cases h
  | cons wanted more ih =>
    rw [selectEach] at h
    cases hfirst : selectProduct info wanted with
    | error e' =>
      simp only [hfirst, Except.error.injEq] at h
      rw [← h]
      exact ⟨[], wanted, more, rfl, List.forall_mem_nil _, invalid_of_selectProduct hfirst⟩
    | ok name =>
      cases hmore : selectEach info more with
      | ok names => simp [hfirst, hmore] at h
      | error e' =>
        simp only [hfirst, hmore, Except.error.injEq] at h
        obtain ⟨before, other, after, hsplit, hbefore, hother⟩ := ih (hmore.trans (congrArg _ h))
        have hwanted := (selects_of_selectProduct hfirst).1
        exact ⟨wanted :: before, other, after, by rw [hsplit]; rfl,
          List.forall_mem_cons.2 ⟨hwanted, hbefore⟩, hother⟩

/-- Products are chosen exactly if every request names one. Then each request has its own entry,
which is the first product that it names; else the first request that names none is reported. -/
theorem selectProducts_selects (info : Info) {requested : List String} (h : requested ≠ []) :
    ((∃ names, selectProducts info requested = .ok names) ↔
        ∀ wanted ∈ requested, Offers info wanted) ∧
      (∀ names, selectProducts info requested = .ok names →
        List.Forall₂ (Selects info) requested names) ∧
      ∀ e, selectProducts info requested = .error e →
        ∃ before wanted after, requested = before ++ wanted :: after ∧
          (∀ w ∈ before, Offers info w) ∧ ¬Offers info wanted ∧
          e = .invalidProduct wanted info.name info.productNames := by
  have heach : selectProducts info requested = selectEach info requested :=
    if_neg (by simpa using h)
  rw [heach]
  refine ⟨⟨?_, fun hoffers => ?_⟩, fun names hnames => ?_, fun e => selectEach_eq_error⟩
  · rintro ⟨names, hnames⟩
    exact (List.forall₂_and_left _ _).1 (selectEach_eq_ok hnames) |>.1
  · cases hresult : selectEach info requested with
    | ok names => exact ⟨names, rfl⟩
    | error e =>
      obtain ⟨before, wanted, after, rfl, _, hwanted, _⟩ := selectEach_eq_error hresult
      exact absurd (hoffers wanted (by simp)) hwanted
  · exact (List.forall₂_and_left _ _).1 (selectEach_eq_ok hnames) |>.2

/-- Two requests, of which one has another case and one does not. -/
theorem selectProducts_selects_kits :
    ["KIT-cli", "Kit"] ≠ [] ∧
      selectProducts ⟨"Kit", "https://x/Kit", [], [⟨"Kit", .library⟩, ⟨"kit-CLI", .executable⟩]⟩
        ["KIT-cli", "Kit"] = .ok ["kit-CLI", "Kit"] ∧
      List.Forall₂
        (Selects ⟨"Kit", "https://x/Kit", [], [⟨"Kit", .library⟩, ⟨"kit-CLI", .executable⟩]⟩)
        ["KIT-cli", "Kit"] ["kit-CLI", "Kit"] := by
  have hsome : ["KIT-cli", "Kit"] ≠ [] := by decide
  have hnames : selectProducts
      ⟨"Kit", "https://x/Kit", [], [⟨"Kit", .library⟩, ⟨"kit-CLI", .executable⟩]⟩
      ["KIT-cli", "Kit"] = .ok ["kit-CLI", "Kit"] := by decide
  exact ⟨hsome, hnames, (selectProducts_selects _ hsome).2.1 _ hnames⟩

/-- A product that cannot be chosen by its own name. -/
theorem selectProducts_takes_other_case :
    "kit" ∈ Info.productNames
        ⟨"Kit", "https://x/Kit", [], [⟨"Kit", .library⟩, ⟨"kit", .executable⟩]⟩ ∧
      selectProducts ⟨"Kit", "https://x/Kit", [], [⟨"Kit", .library⟩, ⟨"kit", .executable⟩]⟩
        ["kit"] = .ok ["Kit"] := by
  decide

end PackageManifest.Package
