import Mathlib.Data.BitVec
import Mathlib.Algebra.Order.Ring.Nat
import Mathlib.Tactic.Common

/-! # Trees with red and black nodes

Binary trees whose nodes have a colour, the way down to a place in them as a list of frames, and the repair of a red
node under a red parent on the way back. The colour that an inner rotation gives to the old parent is a parameter: it
is red in a red-black tree, and only the number of black nodes on a path depends on it. -/

namespace Library

inductive Color where
  | red | black
  deriving DecidableEq, Repr

@[simp] theorem Color.not_red {c : Color} : ¬c = .red ↔ c = .black := by cases c <;> simp

@[simp] theorem Color.not_black {c : Color} : ¬c = .black ↔ c = .red := by cases c <;> simp

/-- What a node counts for on a path. -/
def Color.weight : Color → Nat
  | red => 0
  | black => 1

inductive Side where
  | left | right
  deriving DecidableEq, Repr

def Side.other : Side → Side
  | left => right
  | right => left

inductive ColorTree (ι : Type) where
  | nil
  | node (c : Color) (l : ColorTree ι) (a : ι) (r : ColorTree ι)
  deriving DecidableEq, Repr

/-- A node on the way down: the child on `side` is the one that was taken, `sibling` the other. -/
structure Frame (ι : Type) where
  side : Side
  color : Color
  elem : ι
  sibling : ColorTree ι

variable {ι : Type}

namespace ColorTree

def toList : ColorTree ι → List ι
  | nil => []
  | node _ l a r => l.toList ++ a :: r.toList

/-- A missing child is black. -/
def color : ColorTree ι → Color
  | nil => .black
  | node c _ _ _ => c

def paint (c : Color) : ColorTree ι → ColorTree ι
  | nil => nil
  | node _ l a r => node c l a r

/-- A node with the child `x` on side `s` and the child `y` on the other. -/
def join (s : Side) (c : Color) (x : ColorTree ι) (a : ι) (y : ColorTree ι) : ColorTree ι :=
  match s with
  | .left => node c x a y
  | .right => node c y a x

/-- The child on a side. -/
def child : ColorTree ι → Side → ColorTree ι
  | nil, _ => nil
  | node _ l _ _, .left => l
  | node _ _ _ r, .right => r

@[simp] theorem toList_paint (c : Color) (t : ColorTree ι) : (t.paint c).toList = t.toList := by cases t <;> rfl

theorem paint_of_color {c : Color} {t : ColorTree ι} (h : t.color = c) : t.paint c = t := by
  cases t with
  | nil => rfl
  | node c' l a r => rw [← h, color, paint]

theorem color_paint_black (t : ColorTree ι) : (t.paint .black).color = .black := by cases t <;> rfl

@[simp] theorem color_join (s : Side) (c : Color) (x y : ColorTree ι) (a : ι) : (join s c x a y).color = c := by
  cases s <;> rfl

theorem join_ne_nil (s : Side) (c : Color) (x y : ColorTree ι) (a : ι) : join s c x a y ≠ nil := by cases s <;> simp [join]

theorem exists_join {t : ColorTree ι} (h : t ≠ nil) (s : Side) : ∃ c x a y, t = join s c x a y := by
  cases t with
  | nil => exact absurd rfl h
  | node c l a r =>
    cases s
    · exact ⟨c, l, a, r, rfl⟩
    · exact ⟨c, r, a, l, rfl⟩

theorem perm_join (s : Side) (c : Color) (x y : ColorTree ι) (a : ι) :
    (join s c x a y).toList.Perm (a :: (x.toList ++ y.toList)) := by
  cases s
  · exact List.perm_middle
  · exact List.perm_middle.trans (List.perm_append_comm.cons _)

end ColorTree

open ColorTree

/-! ### The way down -/

namespace Frame

/-- The node of a frame, with a tree in its place. -/
def fill (f : Frame ι) (t : ColorTree ι) : ColorTree ι := join f.side f.color t f.elem f.sibling

end Frame

/-- The whole tree, with `t` at the end of the way down. The frames start at the bottom. -/
def plug : List (Frame ι) → ColorTree ι → ColorTree ι
  | [], t => t
  | f :: fs, t => plug fs (f.fill t)

/-- What comes before the end of the way down. -/
def before : List (Frame ι) → List ι
  | [] => []
  | f :: fs => match f.side with
    | .left => before fs
    | .right => before fs ++ f.sibling.toList ++ [f.elem]

/-- What comes after the end of the way down. -/
def after : List (Frame ι) → List ι
  | [] => []
  | f :: fs => match f.side with
    | .left => f.elem :: f.sibling.toList ++ after fs
    | .right => after fs

/-- The elements on the way down and beside it. -/
def elems : List (Frame ι) → List ι
  | [] => []
  | f :: fs => f.elem :: (f.sibling.toList ++ elems fs)

/-- The colour of the node above; above the root it counts as black. -/
def colorAbove : List (Frame ι) → Color
  | [] => .black
  | f :: _ => f.color

theorem toList_plug (fs : List (Frame ι)) (t : ColorTree ι) : (plug fs t).toList = before fs ++ t.toList ++ after fs := by
  induction fs generalizing t with
  | nil => simp [plug, before, after]
  | cons f fs ih =>
    obtain ⟨_ | _, c, a, s⟩ := f <;> simp [plug, ih, before, after, Frame.fill, join, toList]

theorem perm_elems (fs : List (Frame ι)) : (elems fs).Perm (before fs ++ after fs) := by
  induction fs with
  | nil => exact .refl _
  | cons f fs ih =>
    refine ((ih.append_left _).cons _).trans ?_
    obtain ⟨_ | _, c, a, s⟩ := f
    · have hswap : ((a :: s.toList) ++ before fs ++ after fs).Perm (before fs ++ (a :: s.toList) ++ after fs) :=
        List.perm_append_comm.append_right _
      simpa [before, after] using hswap
    · have hswap : ([a] ++ (s.toList ++ before fs) ++ after fs).Perm (before fs ++ s.toList ++ [a] ++ after fs) :=
        (List.perm_append_comm.trans (List.perm_append_comm.append_right _)).append_right _
      simpa [before, after] using hswap

theorem perm_plug (fs : List (Frame ι)) (t : ColorTree ι) : (plug fs t).toList.Perm (t.toList ++ elems fs) := by
  have hswap : (before fs ++ t.toList ++ after fs).Perm (t.toList ++ before fs ++ after fs) :=
    List.perm_append_comm.append_right _
  rw [toList_plug]
  exact hswap.trans (by simpa using (perm_elems fs).symm.append_left t.toList)

/-- The way down to the place of a new element: to the left where `lt` holds. -/
def descend (lt : ι → Bool) : ColorTree ι → List (Frame ι) → List (Frame ι)
  | nil, fs => fs
  | node c l a r, fs => if lt a then descend lt l (⟨.left, c, a, r⟩ :: fs) else descend lt r (⟨.right, c, a, l⟩ :: fs)

theorem plug_descend (lt : ι → Bool) (t : ColorTree ι) (fs : List (Frame ι)) : plug (descend lt t fs) nil = plug fs t := by
  induction t generalizing fs with
  | nil => rfl
  | node c l a r ihl ihr =>
    unfold descend
    split
    · exact ihl _
    · exact ihr _

theorem toList_divided (lt : ι → Bool) (t : ColorTree ι) :
    t.toList = before (descend lt t []) ++ after (descend lt t []) := by
  have hplug := toList_plug (descend lt t []) nil
  rw [plug_descend] at hplug
  simpa [plug, toList] using hplug

/-- The way down divides a tree that is ordered for `lt`. -/
theorem descend_divides {lt : ι → Bool} {t : ColorTree ι} {fs : List (Frame ι)}
    (hsorted : (plug fs t).toList.Pairwise fun a b => lt a → lt b)
    (hbefore : ∀ a ∈ before fs, ¬lt a) (hafter : ∀ a ∈ after fs, lt a) :
    (∀ a ∈ before (descend lt t fs), ¬lt a) ∧ ∀ a ∈ after (descend lt t fs), lt a := by
  induction t generalizing fs with
  | nil => exact ⟨hbefore, hafter⟩
  | node c l a r ihl ihr =>
    have htree : (node c l a r).toList.Pairwise fun a b => lt a → lt b := by
      rw [toList_plug, List.append_assoc] at hsorted
      exact (List.pairwise_append.mp (List.pairwise_append.mp hsorted).2.1).1
    obtain ⟨-, hmid, hcross⟩ := List.pairwise_append.mp htree
    unfold descend
    split
    · rename_i hlt
      refine ihl hsorted hbefore fun b hb => ?_
      rcases List.mem_append.mp hb with hb | hb
      · rcases List.mem_cons.mp hb with rfl | hb
        · exact hlt
        · exact (List.pairwise_cons.mp hmid).1 b hb hlt
      · exact hafter b hb
    · rename_i hlt
      refine ihr hsorted (fun b hb => ?_) hafter
      rcases List.mem_append.mp hb with hb | hb
      · rcases List.mem_append.mp hb with hb | hb
        · exact hbefore b hb
        · exact fun hltb => hlt (hcross b hb a List.mem_cons_self hltb)
      · rwa [List.mem_singleton.mp hb]

/-- The element that compares equal: to the left where `cmp` is negative, to the right where it is positive. -/
def ColorTree.search (cmp : ι → Int) : ColorTree ι → Option ι
  | nil => none
  | node _ l a r => if cmp a < 0 then l.search cmp else if 0 < cmp a then r.search cmp else some a

theorem mem_of_search {cmp : ι → Int} {t : ColorTree ι} {a : ι} (h : t.search cmp = some a) :
    a ∈ t.toList ∧ cmp a = 0 := by
  induction t with
  | nil => cases h
  | node c l b r ihl ihr =>
    rw [ColorTree.search] at h
    rw [toList, List.mem_append, List.mem_cons]
    split at h
    · exact ⟨.inl (ihl h).1, (ihl h).2⟩
    · split at h
      · exact ⟨.inr (.inr (ihr h).1), (ihr h).2⟩
      · obtain rfl := Option.some.inj h
        exact ⟨.inr (.inl rfl), by omega⟩

/-- In a tree that is ordered for `cmp`, a search that finds nothing has seen enough. -/
theorem ne_zero_of_search {cmp : ι → Int} {t : ColorTree ι}
    (hsorted : t.toList.Pairwise fun a b => (cmp a < 0 → cmp b < 0) ∧ (0 < cmp b → 0 < cmp a))
    (h : t.search cmp = none) : ∀ a ∈ t.toList, cmp a ≠ 0 := by
  induction t with
  | nil => exact fun a ha => absurd ha List.not_mem_nil
  | node c l b r ihl ihr =>
    obtain ⟨hl, hmid, hcross⟩ := List.pairwise_append.mp hsorted
    obtain ⟨hright, hr⟩ := List.pairwise_cons.mp hmid
    rw [ColorTree.search] at h
    intro a ha
    rcases List.mem_append.mp ha with ha | ha
    · split at h
      · exact ihl hl h a ha
      · split at h
        · rename_i hpos
          exact fun h0 => absurd ((hcross a ha b List.mem_cons_self).2 hpos) (by omega)
        · cases h
    · split at h
      · rename_i hneg
        rcases List.mem_cons.mp ha with rfl | ha
        · omega
        · have := (hright a ha).1 hneg
          omega
      · split at h
        · rcases List.mem_cons.mp ha with rfl | ha
          · omega
          · exact ihr hr h a ha
        · cases h

/-- An element and the way down to it. -/
theorem exists_plug {t : ColorTree ι} {xs ys : List ι} {a : ι} (h : t.toList = xs ++ a :: ys) :
    ∃ (fs : List (Frame ι)) (c : Color) (l r : ColorTree ι), t = plug fs (node c l a r) ∧
      xs = before fs ++ l.toList ∧ ys = r.toList ++ after fs := by
  suffices hgen : ∀ (t : ColorTree ι) (fs : List (Frame ι)) {xs ys : List ι}, t.toList = xs ++ a :: ys →
      ∃ (fs' : List (Frame ι)) (c : Color) (l r : ColorTree ι), plug fs t = plug fs' (node c l a r) ∧
        before fs ++ xs = before fs' ++ l.toList ∧ ys ++ after fs = r.toList ++ after fs' by
    obtain ⟨fs, c, l, r, h1, h2, h3⟩ := hgen t [] h
    exact ⟨fs, c, l, r, h1, h2, by simpa [after] using h3⟩
  clear h xs ys
  intro t
  induction t with
  | nil =>
    intro fs xs ys h
    simp [toList] at h
  | node c l b r ihl ihr =>
    intro fs xs ys h
    rw [toList, List.append_eq_append_iff] at h
    rcases h with ⟨zs, rfl, h⟩ | ⟨zs, h, hr⟩
    · rcases List.cons_eq_append_iff.mp h with ⟨rfl, h'⟩ | ⟨ws, rfl, h'⟩
      · obtain ⟨rfl, rfl⟩ := List.cons.inj h'
        exact ⟨fs, c, l, r, rfl, by simp, rfl⟩
      · obtain ⟨fs', c', l', r', h1, h2, h3⟩ := ihr (⟨.right, c, b, l⟩ :: fs) h'
        refine ⟨fs', c', l', r', h1, ?_, h3⟩
        rw [← h2]
        simp [before]
    · rcases List.cons_eq_append_iff.mp hr with ⟨rfl, h'⟩ | ⟨ws, rfl, h'⟩
      · obtain ⟨rfl, rfl⟩ := List.cons.inj h'
        exact ⟨fs, c, l, r, rfl, by simp [h], rfl⟩
      · obtain ⟨fs', c', l', r', h1, h2, h3⟩ := ihl (⟨.left, c, b, r⟩ :: fs) h
        refine ⟨fs', c', l', r', h1, h2, ?_⟩
        rw [← h3]
        simp [after, h']

/-! ### The repair -/

/-- The rotation at the node of `g`, for a red tree `t` under the red node of `f`. In an inner rotation, where `t` is
    on the other side, the node of `f` gets a colour from `turn`. -/
def rotate (turn : Side → Color) (f g : Frame ι) (t : ColorTree ι) : ColorTree ι :=
  if f.side = g.side then
    join g.side g.color t f.elem (join g.side .red (f.sibling.paint .black) g.elem g.sibling)
  else match t with
    | nil => g.fill (f.fill nil)
    | node c l a r =>
      join g.side g.color
        (join g.side (turn g.side) f.sibling f.elem (((node c l a r).child g.side).paint .black)) a
        (join g.side .red (((node c l a r).child g.side.other).paint .black) g.elem g.sibling)

theorem rotate_inner {turn : Side → Color} {f g : Frame ι} {c : Color} {x y : ColorTree ι} {a : ι}
    (h : f.side ≠ g.side) : rotate turn f g (join g.side c x a y) =
      join g.side g.color (join g.side (turn g.side) f.sibling f.elem (x.paint .black)) a
        (join g.side .red (y.paint .black) g.elem g.sibling) := by
  rw [rotate.eq_def, if_neg h]
  cases g.side <;> rfl

/-- The way back up from a red tree `t`: colours change as long as the sibling of the parent is red, and then there is
    at most one rotation. -/
def repair (turn : Side → Color) : List (Frame ι) → ColorTree ι → ColorTree ι
  | [], t => t.paint .black
  | [f], t => f.fill t
  | f :: g :: fs, t =>
    if f.color = .black then plug (f :: g :: fs) t
    else if g.sibling.color = .red then
      repair turn fs (join g.side .red (({ f with color := .black } : Frame ι).fill t) g.elem (g.sibling.paint .black))
    else plug fs (rotate turn f g t)

/-- The side to which the way back up makes an inner rotation, if it makes one. -/
def innerTurn : List (Frame ι) → Option Side
  | f :: g :: fs =>
    if f.color = .black then none
    else if g.sibling.color = .red then innerTurn fs
    else if f.side = g.side then none
    else some g.side
  | _ => none

theorem toList_rotate (turn : Side → Color) (f g : Frame ι) (t : ColorTree ι) :
    (rotate turn f g t).toList = (g.fill (f.fill t)).toList := by
  obtain ⟨_ | _, c, a, s⟩ := f <;> obtain ⟨_ | _, c', a', s'⟩ := g <;> cases t <;>
    simp [rotate, Frame.fill, join, toList, child, Side.other]

theorem toList_repair (turn : Side → Color) (fs : List (Frame ι)) (t : ColorTree ι) :
    (repair turn fs t).toList = before fs ++ t.toList ++ after fs := by
  induction fs, t using repair.induct with
  | case1 t => simp [repair, before, after]
  | case2 f t => exact toList_plug [f] t
  | case3 f g fs t hf =>
    rw [repair, if_pos hf]
    exact toList_plug _ t
  | case4 f g fs t hf hg ih =>
    rw [repair, if_neg hf, if_pos hg, ih]
    obtain ⟨_ | _, c, a, s⟩ := f <;> obtain ⟨_ | _, c', a', s'⟩ := g <;>
      simp [before, after, Frame.fill, join, toList]
  | case5 f g fs t hf hg =>
    rw [repair, if_neg hf, if_neg hg, toList_plug, toList_rotate, ← toList_plug, ← toList_plug]
    rfl

/-! ### The colour of the root -/

/-- The node at the top of the way down is black. -/
def BlackRoot : List (Frame ι) → Prop
  | [] => True
  | [f] => f.color = .black
  | _ :: fs => BlackRoot fs

theorem BlackRoot.tail {f : Frame ι} {fs : List (Frame ι)} (h : BlackRoot (f :: fs)) : BlackRoot fs := by
  cases fs with
  | nil => trivial
  | cons g fs => exact h

theorem color_plug {fs : List (Frame ι)} (hne : fs ≠ []) (t : ColorTree ι) :
    (plug fs t).color = .black ↔ BlackRoot fs := by
  induction fs generalizing t with
  | nil => exact absurd rfl hne
  | cons f fs ih =>
    cases fs with
    | nil => simp [plug, Frame.fill, BlackRoot]
    | cons g fs => exact ih (by simp) _

theorem BlackRoot.color_plug {fs : List (Frame ι)} (h : BlackRoot fs) {t : ColorTree ι} (ht : t.color = .black ∨ fs ≠ []) :
    (plug fs t).color = .black := by
  by_cases hne : fs = []
  · subst hne
    exact ht.resolve_right (by simp)
  · exact (Library.color_plug hne t).mpr h

theorem blackRoot_descend {lt : ι → Bool} {t : ColorTree ι} (h : t.color = .black) : BlackRoot (descend lt t []) := by
  have hplug := plug_descend lt t []
  by_cases hne : descend lt t [] = []
  · rw [hne]
    trivial
  · rw [← color_plug hne nil, hplug]
    exact h

theorem color_rotate {turn : Side → Color} {f g : Frame ι} {t : ColorTree ι} :
    (rotate turn f g t).color = g.color := by
  unfold rotate
  split
  · exact color_join ..
  · split
    · exact color_join ..
    · exact color_join ..

theorem color_repair (turn : Side → Color) {fs : List (Frame ι)} (h : BlackRoot fs) (t : ColorTree ι) :
    (repair turn fs t).color = .black := by
  induction fs, t using repair.induct with
  | case1 t => exact color_paint_black t
  | case2 f t => exact h.color_plug (.inr (by simp))
  | case3 f g fs t hf =>
    rw [repair, if_pos hf]
    exact h.color_plug (.inr (by simp))
  | case4 f g fs t hf hg ih =>
    rw [repair, if_neg hf, if_pos hg]
    exact ih h.tail.tail
  | case5 f g fs t hf hg =>
    rw [repair, if_neg hf, if_neg hg]
    refine h.tail.tail.color_plug ?_
    cases fs with
    | nil => exact .inl (color_rotate.trans h.tail)
    | cons => exact .inr (by simp)

/-! ### Red nodes -/

/-- No red node has a red child. -/
def ColorTree.NoRedRed : ColorTree ι → Prop
  | nil => True
  | node c l _ r => (c = .red → l.color = .black ∧ r.color = .black) ∧ l.NoRedRed ∧ r.NoRedRed

/-- The same for the nodes on a way down and beside it. -/
def NoRedAbove : List (Frame ι) → Prop
  | [] => True
  | f :: fs => (f.color = .red → f.sibling.color = .black ∧ colorAbove fs = .black) ∧ f.sibling.NoRedRed ∧ NoRedAbove fs

theorem noRedRed_join {s : Side} {c : Color} {x y : ColorTree ι} {a : ι} :
    (join s c x a y).NoRedRed ↔ (c = .red → x.color = .black ∧ y.color = .black) ∧ x.NoRedRed ∧ y.NoRedRed := by
  cases s
  · exact Iff.rfl
  · change (c = .red → y.color = .black ∧ x.color = .black) ∧ y.NoRedRed ∧ x.NoRedRed ↔ _
    rw [and_comm (a := y.color = .black), and_comm (a := y.NoRedRed)]

theorem noRedRed_paint_black {t : ColorTree ι} (h : t.NoRedRed) : (t.paint .black).NoRedRed := by
  cases t with
  | nil => trivial
  | node c l a r => exact ⟨by simp, h.2⟩

theorem ColorTree.NoRedRed.child {t : ColorTree ι} (h : t.NoRedRed) (s : Side) : (t.child s).NoRedRed := by
  cases t with
  | nil => trivial
  | node c l a r =>
    cases s
    · exact h.2.1
    · exact h.2.2

theorem noRedRed_plug {fs : List (Frame ι)} {t : ColorTree ι} :
    (plug fs t).NoRedRed ↔ NoRedAbove fs ∧ t.NoRedRed ∧ (colorAbove fs = .red → t.color = .black) := by
  induction fs generalizing t with
  | nil => simp [plug, NoRedAbove, colorAbove]
  | cons f fs ih =>
    rw [plug, ih, Frame.fill, noRedRed_join, color_join, NoRedAbove, colorAbove]
    cases hc : f.color <;> cases hd : colorAbove fs <;> simp <;> tauto

theorem noRedRed_rotate {turn : Side → Color} {f g : Frame ι} {t : ColorTree ι} (hf : f.sibling.NoRedRed)
    (hg : g.sibling.NoRedRed) (ht : t.NoRedRed) (hcolor : g.color = .black) (hfb : f.sibling.color = .black)
    (hgb : g.sibling.color = .black) (hne : t ≠ nil) : (rotate turn f g t).NoRedRed := by
  unfold rotate
  split
  · rw [noRedRed_join, noRedRed_join]
    exact ⟨by simp [hcolor], ht, fun _ => ⟨color_paint_black _, hgb⟩, noRedRed_paint_black hf, hg⟩
  · split
    · exact absurd rfl hne
    · rw [noRedRed_join, noRedRed_join, noRedRed_join]
      refine ⟨by simp [hcolor], ⟨fun _ => ⟨hfb, color_paint_black _⟩, hf, noRedRed_paint_black (ht.child _)⟩, ?_⟩
      exact ⟨fun _ => ⟨color_paint_black _, hgb⟩, noRedRed_paint_black (ht.child _), hg⟩

theorem noRedRed_repair (turn : Side → Color) {fs : List (Frame ι)} {t : ColorTree ι} (hroot : BlackRoot fs)
    (h : NoRedAbove fs) (ht : t.NoRedRed) (hne : t ≠ nil) : (repair turn fs t).NoRedRed := by
  induction fs, t using repair.induct with
  | case1 t => exact noRedRed_paint_black ht
  | case2 f t =>
    have hf : f.color = .black := hroot
    exact noRedRed_join.mpr ⟨by simp [hf], ht, h.2.1⟩
  | case3 f g fs t hf =>
    rw [repair, if_pos hf]
    exact noRedRed_plug.mpr ⟨h, ht, by simp [colorAbove, hf]⟩
  | case4 f g fs t hf hg ih =>
    rw [repair, if_neg hf, if_pos hg]
    obtain ⟨-, hf', -, hg', hfs⟩ := h
    refine ih hroot.tail.tail hfs ?_ ?_
    · rw [noRedRed_join, Frame.fill, noRedRed_join]
      exact ⟨fun _ => ⟨color_join .., color_paint_black _⟩, ⟨by simp, ht, hf'⟩, noRedRed_paint_black hg'⟩
    · exact join_ne_nil _ _ _ _ _
  | case5 f g fs t hf hg =>
    rw [repair, if_neg hf, if_neg hg]
    obtain ⟨hred, hf', -, hg', hfs⟩ := h
    obtain ⟨hfb, hgc⟩ := hred (Color.not_black.mp hf)
    refine noRedRed_plug.mpr ⟨hfs, noRedRed_rotate hf' hg' ht hgc hfb (Color.not_red.mp hg) hne, fun _ => ?_⟩
    exact color_rotate.trans hgc

/-! ### Black nodes on a path -/

/-- Every path from the root to a missing child passes `n` black nodes. -/
def ColorTree.Height : ColorTree ι → Nat → Prop
  | nil, n => n = 0
  | node c l _ r, n => ∃ m, n = m + c.weight ∧ l.Height m ∧ r.Height m

/-- The same for the nodes beside a way down, when it is `n` from its end on. -/
def HeightAbove : List (Frame ι) → Nat → Prop
  | [], _ => True
  | f :: fs, n => f.sibling.Height n ∧ HeightAbove fs (n + f.color.weight)

theorem ColorTree.Height.unique {t : ColorTree ι} {m n : Nat} (h : t.Height m) (h' : t.Height n) : m = n := by
  induction t generalizing m n with
  | nil => exact h.trans h'.symm
  | node c l a r ihl ihr =>
    obtain ⟨k, rfl, hl, -⟩ := h
    obtain ⟨k', rfl, hl', -⟩ := h'
    rw [ihl hl hl']

theorem height_join {s : Side} {c : Color} {x y : ColorTree ι} {a : ι} {n : Nat} :
    (join s c x a y).Height n ↔ ∃ m, n = m + c.weight ∧ x.Height m ∧ y.Height m := by
  cases s
  · exact Iff.rfl
  · exact exists_congr fun _ => and_congr_right fun _ => and_comm

theorem height_plug {fs : List (Frame ι)} {t : ColorTree ι} :
    (∃ n, (plug fs t).Height n) ↔ ∃ n, t.Height n ∧ HeightAbove fs n := by
  induction fs generalizing t with
  | nil => simp [plug, HeightAbove]
  | cons f fs ih =>
    rw [plug, ih]
    constructor
    · rintro ⟨n, h, hfs⟩
      obtain ⟨m, rfl, ht, hs⟩ := height_join.mp h
      exact ⟨m, ht, hs, hfs⟩
    · rintro ⟨n, ht, hs, hfs⟩
      exact ⟨_, height_join.mpr ⟨n, rfl, ht, hs⟩, hfs⟩

theorem ColorTree.Height.child {t : ColorTree ι} {n : Nat} (h : t.Height n) (hred : t.color = .red) (s : Side) :
    (t.child s).Height n := by
  cases t with
  | nil => cases hred
  | node c l a r =>
    obtain rfl : c = .red := hred
    obtain ⟨m, rfl, hl, hr⟩ := h
    cases s
    · exact hl
    · exact hr

theorem ColorTree.Height.black_of_red {t : ColorTree ι} {n : Nat} (h : t.Height n) (hred : t.color = .red) :
    (t.paint .black).Height (n + 1) := by
  cases t with
  | nil => cases hred
  | node c l a r =>
    obtain rfl : c = .red := hred
    obtain ⟨m, rfl, hl, hr⟩ := h
    exact ⟨_, rfl, hl, hr⟩

/-- A rotation keeps the height exactly when an inner one gives the old parent the colour red. -/
theorem height_rotate {turn : Side → Color} {f g : Frame ι} {t : ColorTree ι} {n : Nat} (ht : t.Height n)
    (hf : f.sibling.Height n) (hg : g.sibling.Height n) (hred : t.color = .red) (hno : t.NoRedRed)
    (hfb : f.sibling.color = .black) (h : f.side = g.side ∨ turn g.side = .red) :
    (rotate turn f g t).Height (n + g.color.weight) := by
  unfold rotate
  split
  · refine height_join.mpr ⟨n, rfl, ht, height_join.mpr ⟨n, rfl, ?_, hg⟩⟩
    rwa [paint_of_color hfb]
  · rename_i hside
    cases t with
    | nil => cases hred
    | node c l a r =>
      have hchild (s : Side) : (((node c l a r).child s).paint .black).Height n := by
        rw [paint_of_color]
        · exact ht.child hred s
        · cases s
          · exact (hno.1 hred).1
          · exact (hno.1 hred).2
      have hturn : turn g.side = .red := h.resolve_left hside
      exact height_join.mpr ⟨n, rfl, height_join.mpr ⟨n, by rw [hturn]; rfl, hf, hchild _⟩,
        height_join.mpr ⟨n, rfl, hchild _, hg⟩⟩

theorem not_height_rotate {turn : Side → Color} {f g : Frame ι} {t : ColorTree ι} {n m : Nat}
    (hf : f.sibling.Height n) (hg : g.sibling.Height n) (hred : t.color = .red) (hside : f.side ≠ g.side)
    (hturn : turn g.side = .black) : ¬(rotate turn f g t).Height m := by
  intro h
  rw [rotate.eq_def, if_neg hside] at h
  cases t with
  | nil => cases hred
  | node c l a r =>
    obtain ⟨k, -, hx, hy⟩ := height_join.mp h
    obtain ⟨i, hi, hf', -⟩ := height_join.mp hx
    obtain ⟨j, hj, -, hg'⟩ := height_join.mp hy
    rw [hf'.unique hf, hturn] at hi
    rw [hg'.unique hg] at hj
    exact absurd (hi.symm.trans hj) (by simp [Color.weight])

/-- The way back up keeps the heights exactly when no inner rotation gives the colour black. -/
theorem height_repair {turn : Side → Color} {fs : List (Frame ι)} {t : ColorTree ι} {n : Nat} (hroot : BlackRoot fs)
    (hno : NoRedAbove fs) (hh : HeightAbove fs n) (ht : t.Height n) (htno : t.NoRedRed) (hred : t.color = .red) :
    (∃ m, (repair turn fs t).Height m) ↔ ∀ s, innerTurn fs = some s → turn s = .red := by
  induction fs, t using repair.induct generalizing n with
  | case1 t => exact iff_of_true ⟨_, ht.black_of_red hred⟩ (by simp [innerTurn])
  | case2 f t => exact iff_of_true (height_plug.mpr ⟨n, ht, hh⟩) (by simp [innerTurn])
  | case3 f g fs t hf =>
    rw [repair, if_pos hf, innerTurn, if_pos hf]
    exact iff_of_true (height_plug.mpr ⟨n, ht, hh⟩) (by simp)
  | case4 f g fs t hf hg ih =>
    rw [repair, if_neg hf, if_pos hg, innerTurn, if_neg hf, if_pos hg]
    obtain ⟨hfred, hfno, -, hgno, hfs⟩ := hno
    obtain ⟨-, hgc⟩ := hfred (Color.not_black.mp hf)
    obtain ⟨hfh, hgh, hh⟩ := hh
    rw [Color.not_black.mp hf] at hgh hh
    change g.color = .black at hgc
    rw [hgc] at hh
    refine ih hroot.tail.tail hfs hh ?_ ?_ (color_join ..)
    · refine height_join.mpr ⟨n + 1, rfl, height_join.mpr ⟨n, rfl, ht, hfh⟩, hgh.black_of_red hg⟩
    · rw [noRedRed_join, Frame.fill, noRedRed_join]
      exact ⟨fun _ => ⟨color_join .., color_paint_black _⟩, ⟨by simp, htno, hfno⟩, noRedRed_paint_black hgno⟩
  | case5 f g fs t hf hg =>
    rw [repair, if_neg hf, if_neg hg, innerTurn, if_neg hf, if_neg hg, height_plug]
    obtain ⟨hfred, hfno, -, hgno, hfs⟩ := hno
    obtain ⟨hfb, -⟩ := hfred (Color.not_black.mp hf)
    obtain ⟨hfh, hgh, hh⟩ := hh
    rw [Color.not_black.mp hf] at hgh hh
    by_cases h : f.side = g.side ∨ turn g.side = .red
    · refine iff_of_true ⟨_, height_rotate ht hfh hgh hred htno hfb h, hh⟩ fun s hs => ?_
      split at hs
      · cases hs
      · obtain rfl := Option.some.inj hs
        exact h.resolve_left ‹_›
    · obtain ⟨hside, hturn⟩ := not_or.mp h
      rw [if_neg hside]
      refine iff_of_false ?_ fun hall => hturn (hall _ rfl)
      rintro ⟨m, hm, -⟩
      exact not_height_rotate hfh hgh hred hside (Color.not_red.mp hturn) hm

/-! ### Red-black trees -/

/-- A red-black tree. -/
structure ColorTree.RedBlack (t : ColorTree ι) : Prop where
  root : t.color = .black
  noRedRed : t.NoRedRed
  height : ∃ n, t.Height n

/-- A tree with a new red element in the place that `lt` leads to, repaired. -/
def ColorTree.insert (turn : Side → Color) (lt : ι → Bool) (t : ColorTree ι) (a : ι) : ColorTree ι :=
  repair turn (descend lt t []) (node .red nil a nil)

/-- An insertion into a red-black tree gives one exactly when it makes no inner rotation with the colour black. -/
theorem redBlack_insert {turn : Side → Color} {lt : ι → Bool} {t : ColorTree ι} {a : ι} (h : t.RedBlack) :
    (t.insert turn lt a).RedBlack ↔ ∀ s, innerTurn (descend lt t []) = some s → turn s = .red := by
  have hroot : BlackRoot (descend lt t []) := blackRoot_descend h.root
  have hplug : plug (descend lt t []) nil = t := plug_descend lt t []
  obtain ⟨hno, -, -⟩ := noRedRed_plug.mp (hplug ▸ h.noRedRed)
  obtain ⟨n, hn, hh⟩ := height_plug.mp (hplug ▸ h.height)
  have hnew : (node .red nil a nil : ColorTree ι).NoRedRed := ⟨fun _ => ⟨rfl, rfl⟩, trivial, trivial⟩
  have hheight : (∃ m, (t.insert turn lt a).Height m) ↔ _ := height_repair hroot hno hh ⟨n, rfl, hn, hn⟩ hnew rfl
  rw [← hheight]
  constructor
  · exact fun h => h.height
  · exact fun h => ⟨color_repair turn hroot _, noRedRed_repair turn hroot hno hnew (by simp), h⟩

/-! ### Other orders -/

namespace ColorTree

/-- The tree with its sides exchanged. -/
def mirror : ColorTree ι → ColorTree ι
  | nil => nil
  | node c l a r => node c r.mirror a l.mirror

theorem toList_mirror (t : ColorTree ι) : t.mirror.toList = t.toList.reverse := by
  induction t with
  | nil => rfl
  | node c l a r ihl ihr => simp [mirror, toList, ihl, ihr]

/-- The elements with those below a node before it. -/
def postorder : ColorTree ι → List ι
  | nil => []
  | node _ l a r => l.postorder ++ r.postorder ++ [a]

theorem perm_postorder (t : ColorTree ι) : t.postorder.Perm t.toList := by
  induction t with
  | nil => exact .refl _
  | node c l a r ihl ihr =>
    have hmove : (l.postorder ++ r.postorder ++ [a]).Perm (l.postorder ++ a :: r.postorder) := by
      rw [List.append_assoc]
      exact List.perm_append_comm.append_left l.postorder
    exact hmove.trans (ihl.append (ihr.cons a))

/-- The elements with their colours on a level; the root is on level 0. -/
def level : ColorTree ι → Nat → List (ι × Color)
  | nil, _ => []
  | node c _ a _, 0 => [(a, c)]
  | node _ l _ r, n + 1 => l.level n ++ r.level n

/-- How many levels there are. -/
def depth : ColorTree ι → Nat
  | nil => 0
  | node _ l _ r => max l.depth r.depth + 1

theorem level_eq_nil {t : ColorTree ι} {n : Nat} : t.level n = [] ↔ t.depth ≤ n := by
  induction t generalizing n with
  | nil => exact iff_of_true rfl (Nat.zero_le n)
  | node c l a r ihl ihr =>
    cases n with
    | zero => simp [level, depth]
    | succ n => rw [level, List.append_eq_nil_iff, ihl, ihr, depth, Nat.add_le_add_iff_right, Nat.max_le]

/-- The levels have every element once. -/
theorem perm_levels (t : ColorTree ι) {n : Nat} (h : t.depth ≤ n) :
    (((List.range n).flatMap t.level).map Prod.fst).Perm t.toList := by
  induction t generalizing n with
  | nil => simp [level, toList]
  | node c l a r ihl ihr =>
    obtain ⟨m, rfl⟩ : ∃ m, n = m + 1 := ⟨n - 1, by rw [depth] at h; omega⟩
    have hl : l.depth ≤ m := by rw [depth] at h; omega
    have hr : r.depth ≤ m := by rw [depth] at h; omega
    have hsplit : (((List.range m).flatMap fun i => l.level i ++ r.level i).map Prod.fst).Perm (l.toList ++ r.toList) := by
      refine ((List.flatMap_append_perm ..).symm.map _).trans ?_
      rw [List.map_append]
      exact (ihl hl).append (ihr hr)
    rw [List.range_succ_eq_map, List.flatMap_cons, List.flatMap_map]
    exact (hsplit.cons a).trans List.perm_middle.symm

end ColorTree

end Library
