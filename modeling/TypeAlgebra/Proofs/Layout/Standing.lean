import TypeAlgebra.Proofs.Layout.Cursor

/-! Where a cursor stands in a layout, whatever characters it was given. What it has kept is a value for each slot
behind, and where it has kept nothing it has taken nothing. A character that is refused leaves it where it stood. -/
namespace TypeAlgebra
namespace Layout

/-- Matching was given these characters since it last stood at the start, in a session whose registry may have grown
and whose policy may have changed. None of them was refused. -/
inductive Reached (layout : Layout) : Session → List Char → Cursor → Prop
  | start {s : Session} (known : layout.Known s.registry) : Reached layout s [] .start
  | pending {s : Session} {text : List Char} {p q : Cursor} {c : Char} {next : Option Char} {offset : Nat}
      (h : Reached layout s text p) (step : p.step s layout.segments c next offset = (.ok none, q)) :
      Reached layout s (text ++ [c]) q
  | complete {s : Session} {text : List Char} {p q : Cursor} {c : Char} {next : Option Char} {offset : Nat}
      {fields : List (String × Value)} (h : Reached layout s text p)
      (step : p.step s layout.segments c next offset = (.ok (some fields), q)) : Reached layout s [] q
  | later {s s' : Session} {text : List Char} {p : Cursor} (leads : s.registry.Leads s'.registry)
      (h : Reached layout s text p) : Reached layout s' text p

/-- What holds of matching that was given these characters since the start or since the last record. -/
structure Standing (s : Session) (layout : Layout) (text : List Char) (p : Cursor) : Prop where
  inside : p.index < layout.segments.length
  /-- A literal is matched up to the front of one of its characters. The rest of it is what is awaited. -/
  literal : ∀ {whole}, layout.segments[p.index]? = some (.literal whole) →
    p.candidate = "" ∧ String.Pos.Raw.IsValid (.ofList whole) ⟨p.position⟩ ∧
      p.position < (String.ofList whole).utf8ByteSize ∧
      ∃ behind ahead, whole = behind ++ ahead ∧ (String.ofList behind).utf8ByteSize = p.position ∧
        p.awaited layout.segments = "literal " ++ Text.quoted (.ofList ahead)
  slot : ∀ {name ty}, layout.segments[p.index]? = some (.slot name ty) → p.position = 0
  /-- There is one value for each name of a slot behind, and for no other name. -/
  kept : (p.fields.map (·.1)).Nodup ∧
    ∀ {name}, name ∈ p.fields.map (·.1) ↔ ∃ ty, .slot name ty ∈ layout.segments.take p.index
  typed : ∀ {name value ty}, (name, value) ∈ p.fields → .slot name ty ∈ layout.segments → value.ty = ty
  /-- Nothing is in progress at the start only, and there only until a character is taken. -/
  begun : (p.begun = false ↔ p = .start) ∧ (p.begun = false ↔ text = [])
  /-- Each character is compared with one of a literal, or added to a candidate. -/
  consumes : ∀ c next offset, p.Consumes s layout.segments c next offset (p.step s layout.segments c next offset)
  /-- So all characters are those of segments behind, of the front of a literal or of the candidate. -/
  taken : ∃ front behind, Spells (layout.segments.take p.index) front ∧
    text = front ++ behind ++ p.candidate.toList ∧ (String.ofList behind).utf8ByteSize = p.position
  /-- Behind the last segment there is one value for each field of the product, of the field's type. -/
  complete : ∀ {c next offset fields q}, p.step s layout.segments c next offset = (.ok (some fields), q) →
    q = .start ∧ ∃ declared, s.registry.fields? layout.product = some declared ∧ (fields.map (·.1)).Nodup ∧
      (fields.map (·.1)).Perm (declared.map (·.1)) ∧
        ∀ {name ty}, (name, ty) ∈ declared → ∃ value, fields.lookup name = some value ∧ value.ty = ty
  /-- A step fails only where a character is not the one of a literal, and leaves matching where it stood. -/
  refused : ∀ {c next offset failure q}, p.step s layout.segments c next offset = (.error failure, q) →
    q = p ∧ ∃ expected, c ≠ expected ∧ failure = .literalMismatch expected c offset
  /-- Matching by the segments that are left goes the same way. -/
  moves : ∀ c next offset, p.Moves layout.segments c offset (p.step s layout.segments c next offset)
    ((p.progress layout.segments).step s.registry c next)

variable {s : Session} {layout : Layout} {text : List Char} {p : Cursor} {fields : List (String × Value)}

namespace Reached

theorem known (h : layout.Reached s text p) : layout.Known s.registry := by
  induction h with
  | start known => exact known
  | pending _ _ ih => exact ih
  | complete _ _ ih => exact ih
  | later leads _ ih => exact ih.leads leads

/-- Behind a record matching begins again. -/
theorem place (h : layout.Reached s text p) : p.Place layout.segments text := by
  -- The segments stay those of the layout, so that no literal becomes empty while the registry grows.
  induction h with
  | start known =>
    obtain ⟨declared, hfits⟩ := known.fits
    exact Cursor.place_start hfits.solid hfits.nonempty
  | pending h step ih =>
    obtain ⟨declared, hfits⟩ := h.known.fits
    exact ih.step hfits.solid step
  | complete h step ih =>
    obtain ⟨declared, hfits⟩ := h.known.fits
    rw [(ih.complete step).2]
    exact Cursor.place_start hfits.solid hfits.nonempty
  | later leads h ih => exact ih

theorem begun_iff (h : layout.Reached s text p) : p.begun = false ↔ text = [] := by
  induction h with
  | start known => exact iff_of_true rfl rfl
  | @pending s text p q c next offset h step ih =>
    have hconsumes := h.place.consumes s c next offset
    rw [step] at hconsumes
    simp [hconsumes.begun]
  | complete h step ih =>
    rw [(h.place.complete step).2]
    exact iff_of_true rfl rfl
  | later leads h ih => exact ih

end Reached

section Kept

variable {done : List Segment} {declared : List (String × Ty)} {name : String} {value : Value} {ty : Ty}

theorem mem_names_iff (hkept : Committed fields done) : name ∈ fields.map (·.1) ↔ ∃ ty, .slot name ty ∈ done := by
  constructor
  · intro hname
    obtain ⟨⟨name, value⟩, hmem, rfl⟩ := List.mem_map.mp hname
    exact ⟨_, hkept.typed (Sorted.lookup_of_mem hkept.ascending.nodup hmem)⟩
  · rintro ⟨ty, hslot⟩
    obtain ⟨value, hvalue⟩ := hkept.found hslot
    obtain ⟨before, after, rfl, -⟩ := List.lookup_eq_some_iff.mp hvalue
    simp

/-- All slots of a name have the type of its field, so that it does not matter which of them a value is from. -/
theorem Fits.ty_eq (hfits : layout.Fits s.registry declared) (hkept : Committed fields done)
    (hdone : ∀ segment ∈ done, segment ∈ layout.segments) (hlookup : fields.lookup name = some value)
    (hslot : .slot name ty ∈ layout.segments) : value.ty = ty :=
  Option.some.inj ((hfits.typed (hdone _ (hkept.typed hlookup))).symm.trans (hfits.typed hslot))

/-- Behind all segments the names are those of the product's fields. -/
theorem Fits.names_perm (hfits : layout.Fits s.registry declared) (hkept : Committed fields layout.segments) :
    (fields.map (·.1)).Perm (declared.map (·.1)) := by
  rw [List.perm_ext_iff_of_nodup hkept.ascending.nodup hfits.distinct]
  intro name
  rw [mem_names_iff hkept]
  refine ⟨?_, hfits.covered⟩
  rintro ⟨ty, hslot⟩
  obtain ⟨before, after, rfl, -⟩ := List.lookup_eq_some_iff.mp (hfits.typed hslot)
  simp

end Kept

/-- Wherever matching has come to in a layout, it stands in one of its segments, with the values of those behind. -/
theorem Reached.standing_laws (h : layout.Reached s text p) : layout.Standing s text p := by
  obtain ⟨declared, hfits⟩ := h.known.fits
  constructor
  case inside => exact h.place.inside
  case literal => exact h.place.ofLiteral
  case slot => exact h.place.ofSlot
  case kept => exact ⟨h.place.committed.ascending.nodup, mem_names_iff h.place.committed⟩
  case typed =>
    intro name value ty hmem hslot
    have hkept := h.place.committed
    exact hfits.ty_eq hkept (fun _ => List.mem_of_mem_take) (Sorted.lookup_of_mem hkept.ascending.nodup hmem) hslot
  case begun =>
    refine ⟨⟨h.place.eq_start, ?_⟩, h.begun_iff⟩
    rintro rfl
    rfl
  case consumes => exact h.place.consumes s
  case taken => exact h.place.exists_spelled
  case complete =>
    intro c next offset fields q hstep
    obtain ⟨hkept, hstart⟩ := h.place.complete hstep
    refine ⟨hstart, declared, hfits.declared, hkept.ascending.nodup, hfits.names_perm hkept, fun {name ty} hfield => ?_⟩
    obtain ⟨value, hvalue⟩ := hkept.found (hfits.slot hfield)
    exact ⟨value, hvalue, hfits.ty_eq hkept (fun _ => id) hvalue (hfits.slot hfield)⟩
  case refused =>
    intro c next offset failure q hstep
    have hconsumes := h.place.consumes s c next offset
    rw [hstep] at hconsumes
    obtain ⟨hsame, behind, expected, ahead, -, -, hdiffers, hfailure⟩ := hconsumes.refusal
    exact ⟨hsame, expected, hdiffers, hfailure⟩
  case moves =>
    intro c next offset
    exact (h.place.consumes s c next offset).moves

/-- An entry with an arrow behind the number, which takes three bytes, and a blank. -/
def arrowLayout : Layout :=
  ⟨⟨5⟩, [.slot "n" .int, .literal ['→', ' '], .slot "text" ⟨3⟩, .literal [';'], .slot "code" ⟨4⟩]⟩

theorem known_arrowLayout : arrowLayout.Known entryRegistry :=
  ⟨entryRegistry, '$', ⟨5⟩, "$n$→ $text$;$code$", reachable_entryRegistry, .refl, rfl⟩

/-- The number was matched. -/
def numbered : Cursor := ⟨1, 0, "", [("n", .int .int 1)]⟩

/-- The number and the arrow were matched, and the blank is expected. -/
def arrowed : Cursor := ⟨1, 3, "", [("n", .int .int 1)]⟩

theorem reached_arrowed : arrowLayout.Reached (entrySession .raise) ['1', '→'] arrowed := by
  have hnumber : Cursor.start.step (entrySession .raise) arrowLayout.segments '1' (some '→') 0 =
      (.ok none, numbered) := rfl
  have harrow : numbered.step (entrySession .raise) arrowLayout.segments '→' (some ' ') 1 = (.ok none, arrowed) := rfl
  exact ((Reached.start known_arrowLayout).pending hnumber).pending harrow

/-- There matching stands behind the three bytes of the arrow, in front of a character, and stays there when the arrow
is not followed by a blank. -/
theorem standing_laws_arrowed :
    let refusal := arrowed.step (entrySession .raise) arrowLayout.segments 'a' none 2
    arrowLayout.Reached (entrySession .raise) ['1', '→'] arrowed ∧ arrowed.index = 1 ∧ arrowed.position = 3 ∧
      String.Pos.Raw.IsValid (.ofList ['→', ' ']) ⟨3⟩ ∧ refusal.1 = .error (.literalMismatch ' ' 'a' 2) ∧
        refusal.2 = arrowed := by
  intro refusal
  have standing := Reached.standing_laws reached_arrowed
  obtain ⟨-, hboundary, -⟩ := standing.literal rfl
  have hrefused : arrowed.step (entrySession .raise) arrowLayout.segments 'a' none 2 =
      (.error (.literalMismatch ' ' 'a' 2), refusal.2) := rfl
  exact ⟨reached_arrowed, rfl, rfl, hboundary, rfl, (standing.refused hrefused).1⟩

end Layout
end TypeAlgebra
