import RimStone.LinkedList.LinkedList
import RimStone.Lib.Zipper
import RimStone.Lib.DoublyLinked
import RimStone.Lib.View

/-!
# The links of a list

The items of a list are those before the current one, and those from it on; the links
run through both, forwards and backwards (`ListShape`). A list holds a sequence with a
cursor if its items hold the elements (`IsCursor`). Here is how `rim_list_store` and
`rim_list_delete` change them.
-/

namespace RimStone

open RimStone.Lib

def ListItem.elem (e : ListItem) : RimStr × Addr := (e.name, e.data)

namespace RimList

/-- The items of a list: those before the current one, and the others. -/
structure ListShape (f : RimList) (A B : List Addr) : Prop where
  links : DList (link ListItem.next f.items) (link ListItem.prev f.items) f.first f.last (A ++ B)
  curr : f.curr = B.head?
  count : f.numOf = (A ++ B).length
  present : ∀ a ∈ A ++ B, ∃ e, f.items.lookup a = some e

def IsCursor (f : RimList) (c : Cursor (RimStr × Addr)) : Prop :=
  ∃ A B, ListShape f A B ∧ A.map (view ListItem.elem f.items) = c.before.map some ∧
    B.map (view ListItem.elem f.items) = c.after.map some

variable {f f' : RimList} {A B : List Addr} {c : Cursor (RimStr × Addr)}

theorem ListShape.nodup (hs : ListShape f A B) : (A ++ B).Nodup := hs.links.nodup

/-- There are as many items on either side of the cursor as elements. -/
theorem length_of_map {items : ListItems} {l : List Addr} {es : List (RimStr × Addr)}
    (h : l.map (view ListItem.elem items) = es.map some) : l.length = es.length := by
  have hlen := congrArg List.length h
  rwa [List.length_map, List.length_map] at hlen

theorem IsCursor.count (h : f.IsCursor c) : f.numOf = c.all.length := by
  obtain ⟨A, B, hs, hA, hB⟩ := h
  rw [hs.count, Cursor.all, List.length_append, List.length_append, length_of_map hA, length_of_map hB]

/-- There is no current item at the end, and only there. -/
theorem IsCursor.curr_none (h : f.IsCursor c) : f.curr = none ↔ c.after = [] := by
  obtain ⟨A, B, hs, -, hB⟩ := h
  rw [hs.curr, List.head?_eq_none_iff]
  constructor
  · rintro rfl
    simpa using hB.symm
  · intro hafter
    rw [hafter] at hB
    simpa using hB

theorem init_isCursor (process : Bool) (addr : Addr) : (rimListInit process addr).1.IsCursor {} :=
  ⟨[], [], ⟨dList_nil, rfl, rfl, nofun⟩, rfl, rfl⟩

/-- The cursor of a list may be put anywhere. -/
theorem IsCursor.move (A' B' : List Addr) {c' : Cursor (RimStr × Addr)} (hs : ListShape f A B)
    (hA : A.map (view ListItem.elem f.items) = c.before.map some)
    (hB : B.map (view ListItem.elem f.items) = c.after.map some) {p : Option Addr} (hp : p = B'.head?)
    (hlist : A' ++ B' = A ++ B) (hall : c'.all = c.all) (hlen : A'.length = c'.before.length) :
    { f with curr := p }.IsCursor c' := by
  have hmap : (A' ++ B').map (view ListItem.elem f.items) = (c'.before ++ c'.after).map some := by
    have hc : c'.before ++ c'.after = c.before ++ c.after := hall
    rw [hlist, hc, List.map_append, List.map_append, hA, hB]
  rw [List.map_append, List.map_append] at hmap
  obtain ⟨hA', hB'⟩ := List.append_inj hmap (by rw [List.length_map, List.length_map, hlen])
  refine ⟨A', B', ⟨?_, hp, ?_, ?_⟩, hA', hB'⟩
  · rw [hlist]
    exact hs.links
  · rw [hlist]
    exact hs.count
  · rw [hlist]
    exact hs.present

/-! ## Storing -/

theorem setItem_eq {a : Addr} {e : ListItem} (he : f.items.lookup a = some e) (g : ListItem → ListItem) :
    f.setItem a g = some { f with items := f.items.insert a (g e) } := by
  unfold setItem
  rw [he]
  rfl

/-- To append is to store where there is no current item. -/
theorem rimListStore_append (f : RimList) (name : RimStr) (data np : Addr) :
    f.rimListStore name data true np = { f with curr := none }.rimListStore name data false np := by
  unfold rimListStore linkItem
  by_cases hz : f.numOf = 0
  · simp [hz]
  · simp [hz]

theorem rimListStore_empty (hs : ListShape f [] []) (name : RimStr) (data np : Addr) :
    ∃ f', f.rimListStore name data false np =
        some (f', [.malloc np sizeofListItem, .addRef data, .addRef name.addr]) ∧ ListShape f' [] [np] ∧
      view ListItem.elem f'.items = Function.update (view ListItem.elem f.items) np (some (name, data)) := by
  have hz : f.numOf = 0 := hs.count
  let new : ListItem := { data, name, next := none, prev := none }
  let f' : RimList :=
    { f with items := f.items.insert np new, first := some np, last := some np, curr := some np, numOf := f.numOf + 1 }
  have hlook : f'.items.lookup np = some new := AList.lookup_insert _
  refine ⟨f', ?_, ⟨⟨?_, ?_⟩, rfl, ?_, ?_⟩, view_insert⟩
  · unfold rimListStore linkItem
    dsimp only
    rw [if_pos hz]
    rfl
  · exact .cons (congrArg some (link_of_lookup hlook)) .nil
  · exact .cons (congrArg some (link_of_lookup hlook)) .nil
  · show f.numOf + 1 = _
    rw [hz]
    rfl
  · intro a ha
    obtain rfl := List.mem_singleton.mp ha
    exact ⟨new, hlook⟩

/-- Storing at the end of a list. -/
theorem rimListStore_end {z : Addr} (hs : ListShape f (A ++ [z]) []) (name : RimStr) (data : Addr) {np : Addr}
    (hnew : np ∉ A ++ [z]) :
    ∃ f', f.rimListStore name data false np =
        some (f', [.malloc np sizeofListItem, .addRef data, .addRef name.addr]) ∧ ListShape f' (A ++ [z]) [np] ∧
      view ListItem.elem f'.items = Function.update (view ListItem.elem f.items) np (some (name, data)) := by
  have hlist : (A ++ [z]) ++ [] = A ++ [z] := List.append_nil _
  have hlinks := hs.links
  rw [hlist] at hlinks
  have hz : f.numOf ≠ 0 := by
    rw [hs.count]
    simp
    omega
  have hlast : f.last = some z := by rw [hlinks.last_eq, List.getLast?_concat]
  obtain ⟨e, he⟩ := hs.present z (by simp)
  have hne : z ≠ np := fun h => hnew (by simp [h])
  let new : ListItem := { data, name, next := none, prev := none }
  let items₁ := f.items.insert np new
  let items₂ := items₁.insert z { e with next := some np }
  let items₃ := items₂.insert np { new with prev := some z }
  let f' : RimList := { f with items := items₃, last := some np, curr := some np, numOf := f.numOf + 1 }
  have he₁ : items₁.lookup z = some e := (AList.lookup_insert_ne hne).trans he
  have he₂ : items₂.lookup np = some new := (AList.lookup_insert_ne hne.symm).trans (AList.lookup_insert _)
  refine ⟨f', ?_, ⟨?_, rfl, ?_, ?_⟩, ?_⟩
  · simp [rimListStore, linkItem, setItem, hz, hs.curr, hlast, he, hne, hne.symm, f', items₁, items₂, items₃, new]
  · have hins : DList (link ListItem.next items₃) (link ListItem.prev items₃) f.first (some np) (A ++ [z, np]) := by
      apply hlinks.insertAfter hnew _ _ rfl rfl
      · intro b
        simp only [items₃, items₂, items₁, link_insert]
        by_cases hbz : b = z
        · subst hbz
          simp [hne]
        · by_cases hb : b = np
          · subst hb
            simp [hne, new]
          · simp [hbz, hb, Ne.symm hbz, Ne.symm hb]
      · intro b
        simp only [items₃, items₂, items₁, link_insert]
        by_cases hbz : b = z
        · subst hbz
          simp [hne, hne.symm, link_of_lookup he]
        · by_cases hb : b = np
          · subst hb
            simp
          · simp [hbz, hb, Ne.symm hb]
    simpa using hins
  · show f.numOf + 1 = _
    rw [hs.count]
    simp
    omega
  · intro a ha
    have hor : a = np ∨ ∃ e, f.items.lookup a = some e := by
      rcases List.mem_append.mp ha with ha | ha
      · exact Or.inr (hs.present a (by rwa [hlist]))
      · exact Or.inl (List.mem_singleton.mp ha)
    exact exists_insert (Or.inr (exists_insert (Or.inr (exists_insert hor))))
  · have h₂ : view ListItem.elem items₂ = view ListItem.elem items₁ := view_insert_same he₁ rfl
    have h₃ : view ListItem.elem items₃ = view ListItem.elem items₂ := view_insert_same he₂ rfl
    show view ListItem.elem items₃ = _
    rw [h₃, h₂]
    exact view_insert

/-- Storing before the current item. -/
theorem rimListStore_before {x : Addr} (hs : ListShape f A (x :: B)) (name : RimStr) (data : Addr) {np : Addr}
    (hnew : np ∉ A ++ x :: B) :
    ∃ f', f.rimListStore name data false np =
        some (f', [.malloc np sizeofListItem, .addRef data, .addRef name.addr]) ∧ ListShape f' A (np :: x :: B) ∧
      view ListItem.elem f'.items = Function.update (view ListItem.elem f.items) np (some (name, data)) := by
  have hlinks := hs.links
  have hz : f.numOf ≠ 0 := by
    rw [hs.count]
    simp
    omega
  have hcurr : f.curr = some x := hs.curr
  obtain ⟨ex, hex⟩ := hs.present x (by simp)
  have hxnp : x ≠ np := fun h => hnew (by simp [h])
  have hprev : ex.prev = A.getLast? := by
    rw [← link_of_lookup hex (p := ListItem.prev)]
    exact hlinks.prev_eq
  let new : ListItem := { data, name, next := none, prev := none }
  let items₁ := f.items.insert np new
  have hor : ∀ a ∈ A ++ np :: x :: B, a = np ∨ ∃ e, f.items.lookup a = some e := by
    intro a ha
    by_cases hap : a = np
    · exact Or.inl hap
    · apply Or.inr
      apply hs.present
      simpa [hap] using ha
  have hcount : f.numOf + 1 = ((A ++ np :: x :: B).length : Int) := by
    rw [hs.count]
    simp
    omega
  rcases List.eq_nil_or_concat A with rfl | ⟨A, y, rfl⟩
  · -- before the first item
    have hfirst : f.first = some x := hlinks.first_eq
    let items₂ := items₁.insert np { new with next := some x }
    let items₃ := items₂.insert x { ex with prev := some np }
    let f' : RimList := { f with items := items₃, first := some np, curr := some np, numOf := f.numOf + 1 }
    have he₂ : items₂.lookup x = some ex := by
      rw [AList.lookup_insert_ne hxnp, AList.lookup_insert_ne hxnp]
      exact hex
    refine ⟨f', ?_, ⟨?_, rfl, hcount, ?_⟩, ?_⟩
    · simp [rimListStore, linkItem, setItem, hz, hcurr, hfirst, hex, hxnp, f', items₁, items₂, items₃, new]
    · apply hlinks.insertBefore hnew _ _ rfl rfl
      · intro b
        simp only [f', items₃, items₂, items₁, link_insert]
        by_cases hbx : b = x
        · subst hbx
          simp [hxnp.symm, link_of_lookup hex]
        · by_cases hb : b = np
          · subst hb
            simp [hbx]
          · simp [hbx, hb, Ne.symm hb]
      · intro b
        simp only [f', items₃, items₂, items₁, link_insert]
        by_cases hbx : b = x
        · subst hbx
          simp
        · by_cases hb : b = np
          · subst hb
            simp [hbx, Ne.symm hbx, new]
          · simp [hbx, hb, Ne.symm hb, Ne.symm hbx]
    · exact fun a ha => exists_insert (Or.inr (exists_insert (Or.inr (exists_insert (hor a ha)))))
    · have h₂ : view ListItem.elem items₂ = view ListItem.elem items₁ := view_insert_same (AList.lookup_insert _) rfl
      have h₃ : view ListItem.elem items₃ = view ListItem.elem items₂ := view_insert_same he₂ rfl
      show view ListItem.elem items₃ = _
      rw [h₃, h₂]
      exact view_insert
  · -- between two items
    rw [List.concat_eq_append] at *
    have hy : y ∈ A ++ [y] := by simp
    obtain ⟨ey, hey⟩ := hs.present y (List.mem_append_left _ hy)
    have hynp : y ≠ np := fun h => hnew (List.mem_append_left _ (h ▸ hy))
    have hyx : y ≠ x := fun h => (List.nodup_append.mp hs.nodup).2.2 y hy x (List.mem_cons_self ..) h
    have hprev' : ex.prev = some y := by rw [hprev, List.getLast?_concat]
    have hfirst : ¬ some x = f.first := by
      rw [hlinks.first_eq]
      intro he
      have hhead : ((A ++ [y]) ++ x :: B).head? = (A ++ [y]).head? := by cases A <;> rfl
      rw [hhead] at he
      have hmem := List.mem_of_head? he.symm
      exact (List.nodup_append.mp hs.nodup).2.2 x hmem x (List.mem_cons_self ..) rfl
    let items₂ := items₁.insert y { ey with next := some np }
    let items₃ := items₂.insert np { new with prev := some y, next := some x }
    let items₄ := items₃.insert x { ex with prev := some np }
    let f' : RimList := { f with items := items₄, curr := some np, numOf := f.numOf + 1 }
    have he₁ : items₁.lookup y = some ey := (AList.lookup_insert_ne hynp).trans hey
    have he₂ : items₂.lookup np = some new := (AList.lookup_insert_ne hynp.symm).trans (AList.lookup_insert _)
    have he₃ : items₃.lookup x = some ex := by
      rw [AList.lookup_insert_ne hxnp, AList.lookup_insert_ne hyx.symm, AList.lookup_insert_ne hxnp]
      exact hex
    refine ⟨f', ?_, ⟨?_, rfl, hcount, ?_⟩, ?_⟩
    · simp [rimListStore, linkItem, setItem, hz, hcurr, hfirst, hex, hey, hprev', hxnp, hynp, hynp.symm, hyx.symm,
        f', items₁, items₂, items₃, items₄, new]
    · apply hlinks.insertBefore hnew _ _ _ rfl
      · intro b
        simp only [f', items₄, items₃, items₂, items₁, link_insert]
        by_cases hbx : b = x
        · subst hbx
          simp [hxnp.symm, link_of_lookup hex, hyx]
        · by_cases hb : b = np
          · subst hb
            simp [hbx]
          · by_cases hby : b = y
            · subst hby
              simp [hbx, hb, Ne.symm hb]
            · simp [hbx, hb, hby, Ne.symm hb, Ne.symm hby]
      · intro b
        simp only [f', items₄, items₃, items₂, items₁, link_insert]
        by_cases hbx : b = x
        · subst hbx
          simp
        · by_cases hb : b = np
          · subst hb
            simp [hbx, Ne.symm hbx]
          · by_cases hby : b = y
            · subst hby
              simp [hbx, hb, Ne.symm hb, Ne.symm hbx, link_of_lookup hey]
            · simp [hbx, hb, hby, Ne.symm hb, Ne.symm hbx]
      · rw [if_neg (by simp)]
    · exact fun a ha => exists_insert (Or.inr (exists_insert (Or.inr (exists_insert (Or.inr
        (exists_insert (hor a ha)))))))
    · have h₂ : view ListItem.elem items₂ = view ListItem.elem items₁ := view_insert_same he₁ rfl
      have h₃ : view ListItem.elem items₃ = view ListItem.elem items₂ := view_insert_same he₂ rfl
      have h₄ : view ListItem.elem items₄ = view ListItem.elem items₃ := view_insert_same he₃ rfl
      show view ListItem.elem items₄ = _
      rw [h₄, h₃, h₂]
      exact view_insert

/-! ## Deleting -/

/-- `rim_list_delete` takes the current item out of the links. -/
theorem rimListDelete_shape {x : Addr} (hs : ListShape f A (x :: B)) :
    ∃ f' e, f.items.lookup x = some e ∧ f.rimListDelete =
        some (f', [.decProcess e.name.addr, .decProcess e.data, .decProcess x], .okay) ∧
      (match B with
        | [] => ListShape f' A.dropLast A.getLast?.toList
        | _ :: _ => ListShape f' A B) ∧
      (∀ l : List Addr, x ∉ l → l.map (view ListItem.elem f'.items) = l.map (view ListItem.elem f.items)) ∧
      f'.addr = f.addr ∧ f'.process = f.process := by
  have hlinks := hs.links
  obtain ⟨e, he⟩ := hs.present x (by simp)
  have hcurr : f.curr = some x := hs.curr
  have hnext : e.next = B.head? := by
    rw [← link_of_lookup he (p := ListItem.next)]
    exact hlinks.next_eq
  have hprev : e.prev = A.getLast? := by
    rw [← link_of_lookup he (p := ListItem.prev)]
    exact hlinks.prev_eq
  have hcross : ∀ a ∈ A, ∀ b ∈ x :: B, a ≠ b := (List.nodup_append.mp hs.nodup).2.2
  have hxA : x ∉ A := fun h => hcross x h x (List.mem_cons_self ..) rfl
  have hxB : x ∉ B := (List.nodup_cons.mp (List.nodup_append.mp hs.nodup).2.1).1
  -- the item after the current one is pointed back past it
  obtain ⟨f₁, hstep₁, hnext₁, hprev₁, helem₁, hin₁, hfirst₁, hlast₁, hcurr₁, haddr₁, hprocess₁, hnum₁⟩ :
      ∃ f₁, f.unlinkNext e = some f₁ ∧
      link ListItem.next f₁.items = link ListItem.next f.items ∧
      (∀ b, link ListItem.prev f₁.items b = if B.head? = some b then A.getLast? else link ListItem.prev f.items b) ∧
      view ListItem.elem f₁.items = view ListItem.elem f.items ∧
      (∀ a ∈ A ++ x :: B, ∃ i, f₁.items.lookup a = some i) ∧ f₁.first = f.first ∧
      f₁.last = (if B = [] then A.getLast? else f.last) ∧ f₁.curr = (if B = [] then A.getLast? else B.head?) ∧
      f₁.addr = f.addr ∧ f₁.process = f.process ∧ f₁.numOf = f.numOf := by
    unfold unlinkNext
    rw [hnext, hprev]
    cases B with
    | nil =>
      refine ⟨{ f with last := A.getLast?, curr := A.getLast? }, rfl, rfl, ?_, rfl, hs.present, rfl, rfl, rfl, rfl,
        rfl, rfl⟩
      intro b
      rfl
    | cons n B =>
      obtain ⟨en, hen⟩ := hs.present n (by simp)
      refine ⟨{ f with items := f.items.insert n { en with prev := A.getLast? }, curr := some n }, ?_, ?_, ?_, ?_, ?_,
        rfl, ?_, ?_, rfl, rfl, rfl⟩
      · show (f.setItem n _).bind _ = _
        rw [setItem_eq hen]
        rfl
      · exact link_insert_same hen rfl
      · intro b
        show link ListItem.prev (AList.insert n _ f.items) b = _
        rw [link_insert, Function.update_apply]
        simp [eq_comm]
      · exact view_insert_same hen rfl
      · exact fun a ha => exists_insert (Or.inr (hs.present a ha))
      · rw [if_neg (List.cons_ne_nil _ _)]
      · rw [if_neg (List.cons_ne_nil _ _)]
        rfl
  -- the item before it is pointed on past it
  obtain ⟨f₂, hstep₂, hnext₂, hprev₂, helem₂, hin₂, hfirst₂, hlast₂, hcurr₂, haddr₂, hprocess₂, hnum₂⟩ :
      ∃ f₂, f₁.unlinkPrev e = some f₂ ∧
      (∀ b, link ListItem.next f₂.items b = if A.getLast? = some b then B.head? else link ListItem.next f₁.items b) ∧
      link ListItem.prev f₂.items = link ListItem.prev f₁.items ∧
      view ListItem.elem f₂.items = view ListItem.elem f₁.items ∧
      (∀ a ∈ A ++ x :: B, ∃ i, f₂.items.lookup a = some i) ∧
      f₂.first = (if A = [] then B.head? else f₁.first) ∧ f₂.last = f₁.last ∧
      f₂.curr = (if A = [] then B.head? else f₁.curr) ∧
      f₂.addr = f₁.addr ∧ f₂.process = f₁.process ∧ f₂.numOf = f₁.numOf := by
    unfold unlinkPrev
    rw [hnext, hprev]
    rcases List.eq_nil_or_concat A with rfl | ⟨A, p, rfl⟩
    · refine ⟨{ f₁ with first := B.head?, curr := B.head? }, rfl, ?_, rfl, rfl, hin₁, rfl, rfl, rfl, rfl, rfl, rfl⟩
      intro b
      rfl
    · rw [List.concat_eq_append] at *
      obtain ⟨ep, hep⟩ := hin₁ p (by simp)
      rw [List.getLast?_concat]
      refine ⟨{ f₁ with items := f₁.items.insert p { ep with next := B.head? } }, setItem_eq hep _, ?_, ?_, ?_, ?_, ?_,
        rfl, ?_, rfl, rfl, rfl⟩
      · intro b
        show link ListItem.next (AList.insert p _ f₁.items) b = _
        rw [link_insert, Function.update_apply]
        simp [eq_comm]
      · exact link_insert_same hep rfl
      · exact view_insert_same hep rfl
      · exact fun a ha => exists_insert (Or.inr (hin₁ a ha))
      · rw [if_neg (by simp)]
      · rw [if_neg (by simp)]
  -- and it is given up
  let f' : RimList := { f₂ with items := f₂.items.erase x, numOf := f₂.numOf - 1 }
  have hlinks' : DList (link ListItem.next f'.items) (link ListItem.prev f'.items) f'.first f'.last (A ++ B) := by
    apply hlinks.remove
    · intro b hb
      show link ListItem.next (f₂.items.erase x) b = _
      rw [link_erase, Function.update_of_ne hb, hnext₂, hnext₁]
    · intro b hb
      show link ListItem.prev (f₂.items.erase x) b = _
      rw [link_erase, Function.update_of_ne hb, hprev₂, hprev₁]
    · show f₂.first = _
      rw [hfirst₂, hfirst₁]
    · show f₂.last = _
      rw [hlast₂, hlast₁]
  have hpresent' : ∀ a ∈ A ++ B, ∃ i, f'.items.lookup a = some i := by
    intro a ha
    have hax : a ≠ x := by
      rintro rfl
      exact (List.mem_append.mp ha).elim hxA hxB
    have ha' : a ∈ A ++ x :: B := by
      rcases List.mem_append.mp ha with ha | ha
      · exact List.mem_append_left _ ha
      · exact List.mem_append_right _ (List.mem_cons_of_mem _ ha)
    obtain ⟨i, hi⟩ := hin₂ a ha'
    exact ⟨i, (AList.lookup_erase_ne hax).trans hi⟩
  have hcount' : f'.numOf = (A ++ B).length := by
    show f₂.numOf - 1 = _
    rw [hnum₂, hnum₁, hs.count]
    simp
    omega
  refine ⟨f', e, he, ?_, ?_, ?_, ?_, ?_⟩
  · unfold rimListDelete
    rw [hcurr]
    show (Option.bind (f.items.lookup x) fun item => _) = _
    rw [he]
    show (Option.bind (f.unlinkNext e) fun f₁ => _) = _
    rw [hstep₁]
    show (Option.bind (f₁.unlinkPrev e) fun f₂ => _) = _
    rw [hstep₂]
    rfl
  · cases B with
    | nil =>
      have hjoin := Cursor.dropLast_append_toList A
      dsimp only
      rw [List.append_nil] at hlinks' hpresent' hcount'
      refine ⟨?_, ?_, ?_, ?_⟩
      · rwa [hjoin]
      · show f₂.curr = _
        rw [hcurr₂, hcurr₁, if_pos rfl]
        rcases List.eq_nil_or_concat A with rfl | ⟨A, p, rfl⟩
        · rfl
        · simp
      · rwa [hjoin]
      · rwa [hjoin]
    | cons n B =>
      refine ⟨hlinks', ?_, hcount', hpresent'⟩
      show f₂.curr = _
      rw [hcurr₂, hcurr₁, if_neg (List.cons_ne_nil _ _)]
      exact ite_self _
  · intro l hl
    show l.map (view ListItem.elem (f₂.items.erase x)) = _
    rw [view_erase, map_update hl, helem₂, helem₁]
  · exact haddr₂.trans haddr₁
  · exact hprocess₂.trans hprocess₁

def itemCalls (items : ListItems) (a : Addr) : List MemCall :=
  match view ListItem.elem items a with
  | some (name, data) => [.decProcess name.addr, .decProcess data, .decProcess a]
  | none => []

/-- The loop of `rim_list_purge` gives up every item. -/
theorem rimListPurgeLoop_shape {n : Nat} (hs : ListShape f A B) (hn : (A ++ B).length = n) :
    ∃ f', rimListPurgeLoop n f = some (f', (A ++ B).flatMap (itemCalls f.items)) ∧ f'.addr = f.addr := by
  induction n generalizing f A B with
  | zero =>
    have hnil := List.length_eq_zero_iff.mp hn
    have hz : f.numOf = 0 := by rw [hs.count, hnil]; rfl
    refine ⟨f, ?_, rfl⟩
    rw [hnil, rimListPurgeLoop, hz]
    rfl
  | succ n ih =>
    obtain ⟨x, rest, hlist⟩ : ∃ x rest, A ++ B = x :: rest := by
      cases hl : A ++ B with
      | nil =>
        rw [hl] at hn
        cases hn
      | cons x rest => exact ⟨x, rest, rfl⟩
    have hfirst : { f with curr := f.first }.ListShape [] (x :: rest) := by
      refine ⟨?_, ?_, ?_, ?_⟩
      · rw [List.nil_append, ← hlist]
        exact hs.links
      · show f.first = _
        rw [hs.links.first_eq, hlist]
      · show f.numOf = _
        rw [hs.count, hlist, List.nil_append]
      · rw [List.nil_append, ← hlist]
        exact hs.present
    have hx : x ∉ rest := (List.nodup_cons.mp (hlist ▸ hs.nodup)).1
    obtain ⟨f₁, e, he, hdel, hs₁, helem, haddr, -⟩ := rimListDelete_shape hfirst
    have hs₁' : ListShape f₁ [] rest := by
      cases rest with
      | nil => exact hs₁
      | cons y rest => exact hs₁
    have hn₁ : ([] ++ rest).length = n := by
      rw [hlist] at hn
      simpa using hn
    obtain ⟨f', hloop, haddr'⟩ := ih hs₁' hn₁
    have hpos : f.numOf > 0 := by
      rw [hs.count, hlist]
      simp
    refine ⟨f', ?_, haddr'.trans haddr⟩
    rw [rimListPurgeLoop, if_pos hpos]
    show (Option.bind (rimListDelete _) fun r => _) = _
    rw [hdel]
    show (Option.bind (rimListPurgeLoop n f₁) fun r => _) = _
    rw [hloop, hlist, List.nil_append, List.flatMap_cons]
    have hsame : rest.flatMap (itemCalls f₁.items) = rest.flatMap (itemCalls f.items) := by
      apply List.flatMap_congr
      intro a ha
      unfold itemCalls
      have hone := helem [a] (by simp; rintro rfl; exact hx ha)
      simp only [List.map_cons, List.map_nil, List.cons.injEq, and_true] at hone
      rw [hone]
    have hcalls : itemCalls f.items x = [.decProcess e.name.addr, .decProcess e.data, .decProcess x] := by
      unfold itemCalls
      rw [view_of_lookup he]
      rfl
    rw [hsame, hcalls]
    rfl

end RimList

end RimStone
