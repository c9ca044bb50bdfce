import Mathlib
import Quoin.Pretty.Layout

/-!
# Quoin — data and its printed texts

The values that are data: nil, booleans, Integers, Strings, and Lists, Sets and Maps
of such, with Strings for keys. `Denotes` says what data a value of the heap stands
for; a value that contains itself stands for none. Whatever the width, the text that
is printed for it has the tokens of the data, with gaps between the elements
(`render_prints`).

## Results

* `render_prints` — for every value that denotes data, and any width, the text has the tokens of the
  data in order; colours insert escapes only.
-/

namespace Quoin.Pretty

open Trans

/-! ## Data -/

inductive Data where
  | nil
  | bool (b : Bool)
  | int (i : Int64)
  | string (s : List Char)
  | list (ds : List Data)
  | set (ds : List Data)
  | map (es : List (List Char × Data))

/-- What holds of data if it holds of all data that it is made of. -/
theorem Data.parts {C : Data → Prop} (nil : C .nil) (bool : ∀ b, C (.bool b))
    (int : ∀ i, C (.int i)) (string : ∀ s, C (.string s))
    (list : ∀ ds, (∀ d ∈ ds, C d) → C (.list ds)) (set : ∀ ds, (∀ d ∈ ds, C d) → C (.set ds))
    (map : ∀ es, (∀ e ∈ es, C e.2) → C (.map es)) (d : Data) : C d := by
  induction hSize : sizeOf d using Nat.strong_induction_on generalizing d with
  | h n ih =>
    subst hSize
    cases d with
    | nil => exact nil
    | bool b => exact bool b
    | int i => exact int i
    | string s => exact string s
    | list ds =>
      refine list ds fun d hd => ih _ ?_ d rfl
      have := List.sizeOf_lt_of_mem hd
      simp only [Data.list.sizeOf_spec]
      omega
    | set ds =>
      refine set ds fun d hd => ih _ ?_ d rfl
      have := List.sizeOf_lt_of_mem hd
      simp only [Data.set.sizeOf_spec]
      omega
    | map es =>
      refine map es fun e he => ih _ ?_ e.2 rfl
      have hMem := List.sizeOf_lt_of_mem he
      obtain ⟨k, d⟩ := e
      simp only [Data.map.sizeOf_spec, Prod.mk.sizeOf_spec] at hMem ⊢
      omega

/-- `Denotes h v d`: in the heap `h` the value `v` stands for `d`. -/
inductive Denotes (h : Heap) : Value → Data → Prop
  | nil : Denotes h .nil .nil
  | bool (b) : Denotes h (.bool b) (.bool b)
  | int (i) : Denotes h (.int i) (.int i)
  | string {p s} (hNext : p < h.next) (hPayload : h.payload p = .string s) :
    Denotes h (.object p) (.string s)
  | list {p items ds} (hNext : p < h.next) (hPayload : h.payload p = .list items)
    (hItems : List.Forall₂ (Denotes h) items ds) : Denotes h (.object p) (.list ds)
  | set {p items ds} (hNext : p < h.next) (hPayload : h.payload p = .set items)
    (hItems : List.Forall₂ (Denotes h) items ds) : Denotes h (.object p) (.set ds)
  | map {p entries es} (hNext : p < h.next) (hPayload : h.payload p = .map entries)
    (hKeys : entries.map (fun e => stringOf h e.1) = es.map fun e => some e.1)
    (hItems : List.Forall₂ (Denotes h) (entries.map Prod.snd) (es.map Prod.snd)) :
    Denotes h (.object p) (.map es)

/-! ## Documents of data -/

mutual

/-- The document of data. -/
def docOf : Data → Doc
  | .nil => .styled .reserved (word "nil")
  | .bool b => .styled .reserved (word (if b then "true" else "false"))
  | .int i => .styled .number (.text (showInt i.toInt))
  | .string s => .styled .str (.text (quote s))
  | .list ds => bracket [] "#(".toList [')'] (docsOf ds)
  | .set ds => bracket [] "#<".toList ['>'] (docsOf ds)
  | .map es => bracket [] "#\x7b".toList ['\x7d'] (entryDocs es)

def docsOf : List Data → List Doc
  | [] => []
  | d :: ds => docOf d :: docsOf ds

def entryDocs : List (List Char × Data) → List Doc
  | [] => []
  | (k, d) :: es => .cat [.text (quote k), word ": ", docOf d] :: entryDocs es

end

variable {h : Heap} {v : Value} {d d' : Data} {depth : Nat} {visited : List Nat}

theorem Denotes.unique (hd : Denotes h v d) (hd' : Denotes h v d') : d = d' := by
  -- item by item, given that each item denotes one thing
  have hItems : ∀ {items : List Value} {ds ds' : List Data},
      (∀ d ∈ ds, ∀ v d', Denotes h v d → Denotes h v d' → d = d') →
      List.Forall₂ (Denotes h) items ds → List.Forall₂ (Denotes h) items ds' → ds = ds' := by
    intro items ds ds' ih hds hds'
    induction hds generalizing ds' with
    | nil =>
      cases hds'
      rfl
    | cons hFirst _ ihRest =>
      cases hds' with
      | cons hFirst' hRest' =>
        rw [ih _ List.mem_cons_self _ _ hFirst hFirst',
          ihRest (fun d hd => ih d (List.mem_cons_of_mem _ hd)) hRest']
  -- on the data; the payload of the object says which constructor it is
  induction d using Data.parts generalizing v d' with
  | nil | bool | int =>
    cases hd
    cases hd'
    rfl
  | string s =>
    cases hd with
    | string hNext hPayload =>
      cases hd' <;> simp_all
  | list ds ih =>
    cases hd with
    | list hNext hPayload hds =>
      cases hd' with
      | list hNext' hPayload' hds' =>
        cases hPayload.symm.trans hPayload'
        rw [hItems (fun d hd _ _ h h' => ih d hd h h') hds hds']
      | string _ hPayload' | set _ hPayload' | map _ hPayload' =>
        cases hPayload.symm.trans hPayload'
  | set ds ih =>
    cases hd with
    | set hNext hPayload hds =>
      cases hd' with
      | set hNext' hPayload' hds' =>
        cases hPayload.symm.trans hPayload'
        rw [hItems (fun d hd _ _ h h' => ih d hd h h') hds hds']
      | string _ hPayload' | list _ hPayload' | map _ hPayload' =>
        cases hPayload.symm.trans hPayload'
  | map es ih =>
    cases hd with
    | map hNext hPayload hKeys hes =>
      cases hd' with
      | map hNext' hPayload' hKeys' hes' =>
        cases hPayload.symm.trans hPayload'
        rename_i es'
        -- the keys are the texts that the heap has, so they are the same
        have hFst : es.map Prod.fst = es'.map Prod.fst := by
          refine List.map_injective_iff.mpr (Option.some_injective _) ?_
          rw [List.map_map, List.map_map]
          exact hKeys.symm.trans hKeys'
        have hSnd : es.map Prod.snd = es'.map Prod.snd := by
          refine hItems (fun d hd _ _ h h' => ?_) hes hes'
          obtain ⟨e, he, rfl⟩ := List.mem_map.mp hd
          exact ih e he h h'
        rw [← List.zip_unzip es, ← List.zip_unzip es', List.unzip_eq_map, List.unzip_eq_map, hFst,
          hSnd]
      | string _ hPayload' | list _ hPayload' | set _ hPayload' =>
        cases hPayload.symm.trans hPayload'

/-! ## The walk -/

theorem mapM_docsOf {f : Value → Option Doc} {items : List Value} {ds : List Data}
    (hf : ∀ d ∈ ds, ∀ v, Denotes h v d → f v = some (docOf d))
    (hItems : List.Forall₂ (Denotes h) items ds) : items.mapM f = some (docsOf ds) := by
  induction hItems with
  | nil => rfl
  | cons hFirst _ ih =>
    rw [List.mapM_cons, hf _ List.mem_cons_self _ hFirst,
      ih fun d hd => hf d (List.mem_cons_of_mem _ hd), docsOf]
    rfl

theorem mapM_entryDocs {f : Value → Option Doc} {key : Value → Option (List Char)}
    {entries : List (Value × Value)} {es : List (List Char × Data)}
    (hf : ∀ e ∈ es, ∀ v, Denotes h v e.2 → f v = some (docOf e.2))
    (hKeys : entries.map (fun e => stringOf h e.1) = es.map fun e => some e.1)
    (hItems : List.Forall₂ (Denotes h) (entries.map Prod.snd) (es.map Prod.snd)) :
    entries.mapM (entryDoc h f key) = some (entryDocs es) := by
  induction es generalizing entries with
  | nil =>
    cases List.map_eq_nil_iff.mp hKeys
    rfl
  | cons e es ih =>
    cases entries with
    | nil => cases hKeys
    | cons e' entries =>
      obtain ⟨hLabel, hKeys⟩ := List.cons.inj hKeys
      have hKey : stringOf h e'.1 = some e.1 := hLabel
      cases hItems with
      | cons hFirst hRest =>
        have hEntry : entryDoc h f key e'
            = some (.cat [.text (quote e.1), word ": ", docOf e.2]) := by
          rw [entryDoc, hKey, hf e List.mem_cons_self _ hFirst]
          rfl
        rw [List.mapM_cons, hEntry, ih (fun e he => hf e (List.mem_cons_of_mem _ he)) hKeys hRest,
          entryDocs]
        rfl

theorem size_of_mem {e : List Char × Data} {es : List (List Char × Data)} (he : e ∈ es) :
    sizeOf e.2 < sizeOf (Data.map es) := by
  have hMem := List.sizeOf_lt_of_mem he
  obtain ⟨k, d⟩ := e
  simp only [Data.map.sizeOf_spec, Prod.mk.sizeOf_spec] at hMem ⊢
  omega

/-- The objects in `visited` are none that data of the size of `d` is made of. -/
def Above (h : Heap) (visited : List Nat) (d : Data) : Prop :=
  ∀ q ∈ visited, ∀ d', Denotes h (.object q) d' → sizeOf d < sizeOf d'

theorem Above.part {p : Nat} (hAbove : Above h visited d) (hd : Denotes h (.object p) d)
    (hSize : sizeOf d' < sizeOf d) : Above h (p :: visited) d' := by
  intro q hq d'' hd''
  rcases List.mem_cons.mp hq with rfl | hq
  · rw [← hd.unique hd'']
    exact hSize
  · exact hSize.trans (hAbove q hq d'' hd'')

theorem Above.not_mem {p : Nat} (hAbove : Above h visited d) (hd : Denotes h (.object p) d) :
    p ∉ visited :=
  fun hp => Nat.lt_irrefl _ (hAbove p hp d hd)

theorem valueToDoc_object {p : Nat} (hNot : p ∉ visited) :
    valueToDoc h (depth + 1) visited (.object p)
      = objectDoc h (fun w => valueToDoc h depth (p :: visited) w)
          (fun k => (valueToDoc h depth [] k).map fun d => best MAX_WIDTH d false)
          (h.payload p) := by
  rw [valueToDoc, if_neg hNot]

/-- The document of a value that stands for data is that of the data: no object is on the way to
itself. -/
theorem valueToDoc_eq (hd : Denotes h v d) (hAbove : Above h visited d)
    (hDepth : sizeOf d ≤ depth) : valueToDoc h depth visited v = some (docOf d) := by
  -- on the data; the values on the path are above all parts, so none of them is met again
  induction d using Data.parts generalizing v depth visited with
  | nil | bool | int =>
    obtain ⟨depth, rfl⟩ : ∃ n, depth = n + 1 := ⟨depth - 1, by simp at hDepth; omega⟩
    cases hd
    rw [valueToDoc, docOf]
  | string s =>
    obtain ⟨depth, rfl⟩ : ∃ n, depth = n + 1 := ⟨depth - 1, by simp at hDepth; omega⟩
    have hDenotes := hd
    cases hd with
    | string hNext hPayload =>
      rw [valueToDoc_object (hAbove.not_mem hDenotes), hPayload, objectDoc, docOf]
  | list ds ih =>
    obtain ⟨depth, rfl⟩ : ∃ n, depth = n + 1 := ⟨depth - 1, by simp at hDepth; omega⟩
    have hDenotes := hd
    cases hd with
    | @list p _ _ hNext hPayload hItems =>
      have hSub : ∀ d ∈ ds, ∀ w, Denotes h w d →
          valueToDoc h depth (p :: visited) w = some (docOf d) := by
        intro d hMem w hw
        have hSize : sizeOf d < sizeOf (Data.list ds) := by
          have := List.sizeOf_lt_of_mem hMem
          simp only [Data.list.sizeOf_spec]
          omega
        exact ih d hMem hw (hAbove.part hDenotes hSize) (by omega)
      rw [valueToDoc_object (hAbove.not_mem hDenotes), hPayload, objectDoc,
        mapM_docsOf hSub hItems, docOf]
      rfl
  | set ds ih =>
    obtain ⟨depth, rfl⟩ : ∃ n, depth = n + 1 := ⟨depth - 1, by simp at hDepth; omega⟩
    have hDenotes := hd
    cases hd with
    | @set p _ _ hNext hPayload hItems =>
      have hSub : ∀ d ∈ ds, ∀ w, Denotes h w d →
          valueToDoc h depth (p :: visited) w = some (docOf d) := by
        intro d hMem w hw
        have hSize : sizeOf d < sizeOf (Data.set ds) := by
          have := List.sizeOf_lt_of_mem hMem
          simp only [Data.set.sizeOf_spec]
          omega
        exact ih d hMem hw (hAbove.part hDenotes hSize) (by omega)
      rw [valueToDoc_object (hAbove.not_mem hDenotes), hPayload, objectDoc,
        mapM_docsOf hSub hItems, docOf]
      rfl
  | map es ih =>
    obtain ⟨depth, rfl⟩ : ∃ n, depth = n + 1 := ⟨depth - 1, by simp at hDepth; omega⟩
    have hDenotes := hd
    cases hd with
    | @map p _ _ hNext hPayload hKeys hItems =>
      have hSub : ∀ e ∈ es, ∀ w, Denotes h w e.2 →
          valueToDoc h depth (p :: visited) w = some (docOf e.2) := by
        intro e hMem w hw
        have hSize := size_of_mem hMem
        exact ih e hMem hw (hAbove.part hDenotes hSize) (by omega)
      rw [valueToDoc_object (hAbove.not_mem hDenotes), hPayload, objectDoc,
        mapM_entryDocs hSub hKeys hItems, docOf]
      rfl

/-! ## Texts of data -/

/-- `Spaced texts s`: `s` has the texts in their order, with gaps between them, and perhaps one
behind the last. -/
inductive Spaced : List (List Char) → List Char → Prop
  | nil : Spaced [] []
  | last {t w} (hGap : Gap w) : Spaced [t] (t ++ w)
  | more {t w t' ts s} (hGap : Gap w) (hNonempty : w ≠ []) (h : Spaced (t' :: ts) s) :
    Spaced (t :: t' :: ts) (t ++ (w ++ s))

/-- What stands between the delimiters. -/
def Inside (texts : List (List Char)) (body : List Char) : Prop :=
  ∃ w s, Gap w ∧ Spaced texts s ∧ body = w ++ s

/-- The text of an entry. -/
def entryText (k t : List Char) : List Char := quote k ++ (": ".toList ++ t)

/-- The texts that data can be printed as. -/
inductive Prints : Data → List Char → Prop
  | nil : Prints .nil "nil".toList
  | bool (b : Bool) : Prints (.bool b) (if b then "true" else "false").toList
  | int (i : Int64) : Prints (.int i) (showInt i.toInt)
  | string (s) : Prints (.string s) (quote s)
  | list {ds texts body} (hTexts : List.Forall₂ Prints ds texts) (hBody : Inside texts body) :
    Prints (.list ds) ("#(".toList ++ (body ++ [')']))
  | set {ds texts body} (hTexts : List.Forall₂ Prints ds texts) (hBody : Inside texts body) :
    Prints (.set ds) ("#<".toList ++ (body ++ ['>']))
  | map {es texts body} (hTexts : List.Forall₂ Prints (es.map Prod.snd) texts)
    (hBody : Inside (List.zipWith entryText (es.map Prod.fst) texts) body) :
    Prints (.map es) ("#\x7b".toList ++ (body ++ ['\x7d']))

/-- The texts of what stands in a row. -/
theorem spaced_of_shows {docs : List Doc} {s w : List Char} (hDocs : docs ≠ [])
    (h : Shows (.cat (spread docs)) s) (hGap : Gap w) :
    ∃ texts, List.Forall₂ Shows docs texts ∧ Spaced texts (s ++ w) := by
  induction docs generalizing s with
  | nil => exact absurd rfl hDocs
  | cons d docs ih =>
    cases h with
    | cat hTexts =>
      cases docs with
      | nil =>
        rw [spread] at hTexts
        obtain ⟨t, _, hFirst, hNil, rfl⟩ := List.forall₂_cons_left_iff.mp hTexts
        cases hNil
        rw [List.flatten_cons, List.flatten_nil, List.append_nil]
        exact ⟨[t], .cons hFirst .nil, .last hGap⟩
      | cons d' docs =>
        simp only [spread] at hTexts
        obtain ⟨t, _, hFirst, hAfter, rfl⟩ := List.forall₂_cons_left_iff.mp hTexts
        obtain ⟨u, rest, hLine, hRest, rfl⟩ := List.forall₂_cons_left_iff.mp hAfter
        obtain ⟨texts, hShows, hSpaced⟩ := ih (List.cons_ne_nil d' docs) (.cat hRest)
        cases hShows with
        | cons hSecond hOthers =>
          cases hLine with
          | line hGap' hNonempty =>
            refine ⟨_ :: _ :: _, .cons hFirst (.cons hSecond hOthers), ?_⟩
            rw [List.flatten_cons, List.flatten_cons, List.append_assoc, List.append_assoc]
            exact .more hGap' hNonempty hSpaced

/-- The texts of a bracket. -/
theorem inside_of_shows {opening closing t : List Char} {docs : List Doc}
    (h : Shows (bracket [] opening closing docs) t) :
    ∃ texts body, List.Forall₂ Shows docs texts ∧ Inside texts body ∧
      t = opening ++ (body ++ closing) := by
  unfold bracket at h
  -- an empty collection has no gaps
  split at h
  · next hEmpty =>
    cases List.isEmpty_iff.mp hEmpty
    cases h with
    | cat hTexts =>
      obtain ⟨t, _, hOpen, hAfter, rfl⟩ := List.forall₂_cons_left_iff.mp hTexts
      obtain ⟨u, _, hClose, hNil, rfl⟩ := List.forall₂_cons_left_iff.mp hAfter
      cases hNil
      cases hOpen with
      | styled hOpen =>
        cases hOpen
        cases hClose with
        | styled hClose =>
          cases hClose
          exact ⟨[], [], .nil, ⟨[], [], .nil, .nil, rfl⟩, by simp⟩
  · next hEmpty =>
    -- two soft lines around the row of the elements
    have hDocs : docs ≠ [] := fun h => hEmpty (List.isEmpty_iff.mpr h)
    cases h with
    | group h =>
      cases h with
      | cat hTexts =>
        obtain ⟨t, _, hOpen, hAfter, rfl⟩ := List.forall₂_cons_left_iff.mp hTexts
        obtain ⟨mid, _, hNest, hAfterNest, rfl⟩ := List.forall₂_cons_left_iff.mp hAfter
        obtain ⟨w', _, hSoft', hEnd, rfl⟩ := List.forall₂_cons_left_iff.mp hAfterNest
        obtain ⟨u, _, hClose, hNil, rfl⟩ := List.forall₂_cons_left_iff.mp hEnd
        cases hNil
        cases hOpen with
        | styled hOpen =>
          cases hOpen
          cases hClose with
          | styled hClose =>
            cases hClose
            cases hNest with
            | nest hNest =>
              cases hNest with
              | cat hInner =>
                obtain ⟨w, _, hSoft, hLast, rfl⟩ := List.forall₂_cons_left_iff.mp hInner
                obtain ⟨s, _, hRow, hNil, rfl⟩ := List.forall₂_cons_left_iff.mp hLast
                cases hNil
                cases hSoft with
                | soft hGap =>
                  cases hSoft' with
                  | soft hGap' =>
                    obtain ⟨texts, hShows, hSpaced⟩ := spaced_of_shows hDocs hRow hGap'
                    exact ⟨texts, _, hShows, ⟨w, _, hGap, hSpaced, rfl⟩, by simp⟩

theorem shows_styled {role : Role} {s t : List Char} (h : Shows (.styled role (.text s)) t) :
    t = s := by
  cases h with
  | styled h =>
    cases h
    rfl

theorem prints_docsOf {ds : List Data} {texts : List (List Char)}
    (ih : ∀ d ∈ ds, ∀ t, Shows (docOf d) t → Prints d t)
    (h : List.Forall₂ Shows (docsOf ds) texts) : List.Forall₂ Prints ds texts := by
  induction ds generalizing texts with
  | nil =>
    cases h
    exact .nil
  | cons d ds ihRest =>
    obtain ⟨t, rest, hFirst, hRest, rfl⟩ := List.forall₂_cons_left_iff.mp h
    exact .cons (ih d List.mem_cons_self t hFirst)
      (ihRest (fun d hd => ih d (List.mem_cons_of_mem _ hd)) hRest)

theorem prints_entryDocs {es : List (List Char × Data)} {texts : List (List Char)}
    (ih : ∀ e ∈ es, ∀ t, Shows (docOf e.2) t → Prints e.2 t)
    (h : List.Forall₂ Shows (entryDocs es) texts) :
    ∃ values, List.Forall₂ Prints (es.map Prod.snd) values ∧
      texts = List.zipWith entryText (es.map Prod.fst) values := by
  induction es generalizing texts with
  | nil =>
    cases h
    exact ⟨[], .nil, rfl⟩
  | cons e es ihRest =>
    obtain ⟨t, rest, hFirst, hRest, rfl⟩ := List.forall₂_cons_left_iff.mp h
    obtain ⟨values, hValues, rfl⟩ :=
      ihRest (fun e he => ih e (List.mem_cons_of_mem _ he)) hRest
    cases hFirst with
    | cat hTexts =>
      obtain ⟨label, _, hLabel, hAfter, rfl⟩ := List.forall₂_cons_left_iff.mp hTexts
      obtain ⟨colon, _, hColon, hValue, rfl⟩ := List.forall₂_cons_left_iff.mp hAfter
      obtain ⟨u, _, hShows, hNil, rfl⟩ := List.forall₂_cons_left_iff.mp hValue
      cases hNil
      cases hLabel
      cases hColon
      refine ⟨u :: values, .cons (ih e List.mem_cons_self u hShows) hValues, ?_⟩
      simp [entryText]

theorem prints_of_shows {t : List Char} (h : Shows (docOf d) t) : Prints d t := by
  induction d using Data.parts generalizing t with
  | nil =>
    rw [docOf] at h
    cases shows_styled h
    exact .nil
  | bool b =>
    rw [docOf] at h
    cases shows_styled h
    exact .bool b
  | int i =>
    rw [docOf] at h
    cases shows_styled h
    exact .int i
  | string s =>
    rw [docOf] at h
    cases shows_styled h
    exact .string s
  | list ds ih =>
    rw [docOf] at h
    obtain ⟨texts, body, hTexts, hBody, rfl⟩ := inside_of_shows h
    exact .list (prints_docsOf (fun d hd t ht => ih d hd ht) hTexts) hBody
  | set ds ih =>
    rw [docOf] at h
    obtain ⟨texts, body, hTexts, hBody, rfl⟩ := inside_of_shows h
    exact .set (prints_docsOf (fun d hd t ht => ih d hd ht) hTexts) hBody
  | map es ih =>
    rw [docOf] at h
    obtain ⟨texts, body, hTexts, hBody, rfl⟩ := inside_of_shows h
    obtain ⟨values, hValues, rfl⟩ := prints_entryDocs (fun e he t ht => ih e he ht) hTexts
    exact .map hValues hBody

/-- What is rendered of a value that stands for data, without colours and with them. -/
theorem render_prints (hd : Denotes h v d) (hDepth : sizeOf d ≤ depth) (width : Nat) :
    ∃ plain coloured, render h depth v width false = some plain ∧
      render h depth v width true = some coloured ∧ Prints d plain ∧ Coloured plain coloured := by
  have hDoc : valueToDoc h depth [] v = some (docOf d) :=
    valueToDoc_eq hd (fun _ hq => absurd hq List.not_mem_nil) hDepth
  refine ⟨best width (docOf d) false, best width (docOf d) true, ?_, ?_,
    prints_of_shows (best_shows width _), best_coloured width _⟩
  · rw [render, hDoc, Option.map_some]
  · rw [render, hDoc, Option.map_some]

/-- `#( 1 'a\'' )`, at 0. -/
def pairHeap : Heap where
  payload p := if p = 0 then .list [.int 1, .object 1] else .string ['a', '\'']
  next := 2
  set_distinct p items h := by split_ifs at h
  map_distinct p entries h := by split_ifs at h

/-- A list of an Integer and a String with a quote in it, at a width that has no room for both. -/
theorem render_prints_pair : ∃ plain coloured,
    render pairHeap 200 (.object 0) 3 false = some plain ∧
    render pairHeap 200 (.object 0) 3 true = some coloured ∧
    Prints (.list [.int 1, .string ['a', '\'']]) plain ∧ Coloured plain coloured := by
  have hString : Denotes pairHeap (.object 1) (.string ['a', '\'']) := .string (by decide) rfl
  have hList : Denotes pairHeap (.object 0) (.list [.int 1, .string ['a', '\'']]) :=
    .list (by decide) rfl (.cons (.int 1) (.cons hString .nil))
  exact render_prints hList (by decide) 3

end Quoin.Pretty
