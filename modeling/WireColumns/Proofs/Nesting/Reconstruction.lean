import WireColumns.Proofs.Nesting.Levels
import WireColumns.Proofs.Nesting.Subtrees

/-! # Reconstruction from levels

The levels of shredded records give the records' parent lists back (`ParentLists.addLevels_shred`),
if no required step of the pattern stands above a repeated one.

The entries of a node are added where the node itself is still missing: an entry opens the steps
that it does not share with the entry before it, and with them the node. After them the lists are
those with the node and all that is below it appended (`Appends`). The nodes last opened are then
the path to the last entry, so that a further child opens again only what is open
(`opens_again`). -/

namespace WireColumns

open ParentLists Nested

namespace Pattern

/-- No required step stands nearer to the root than a repeated one. -/
def RepeatedFirst (p : Pattern) : Prop :=
  p.steps.Pairwise fun outer inner => ¬ (outer = .required ∧ inner = .repeated)

instance (p : Pattern) : Decidable p.RepeatedFirst :=
  inferInstanceAs (Decidable (p.steps.Pairwise _))

/-- A place on the path of a pattern, by the steps above and below it. A node of the last step above
it has the definition level `d` and lies below `r` repeated steps, neither counting the root. -/
structure Place (p : Pattern) (above below : List Repetition) (d r : Nat) : Prop where
  steps_eq : p.steps = above ++ below
  countP_defining : above.countP Repetition.isDefining = d + 1
  countP_repeated : above.countP Repetition.isRepeated = r + 1

variable {p : Pattern} {above below : List Repetition} {step : Repetition} {d r : Nat}

theorem place_root (hp : p.steps = .repeated :: below) : p.Place [.repeated] below 0 0 :=
  ⟨hp, rfl, rfl⟩

theorem Place.next (h : p.Place above (step :: below) d r) :
    p.Place (above ++ [step]) below (nextDefinition d step) (nextRepetition r step) := by
  refine ⟨by rw [h.steps_eq, List.append_assoc]; rfl, ?_, ?_⟩
  · rw [List.countP_append, h.countP_defining]
    cases step <;> rfl
  · rw [List.countP_append, h.countP_repeated]
    cases step <;> rfl

theorem Place.above_ne_nil (h : p.Place above below d r) : above ≠ [] := by
  rintro rfl
  exact absurd h.countP_defining (by simp)

theorem Place.head?_above (h : p.Place above below d r) : above.head? = some .repeated := by
  cases habove : above with
  | nil => exact absurd habove h.above_ne_nil
  | cons root rest =>
    have hroot := p.root_repeated
    rwa [h.steps_eq, habove] at hroot

theorem Place.definedSteps_leaf (h : p.Place above [] d r) :
    p.definedSteps (Int16.ofNat d) = above.length := by
  have hsteps : p.steps = above := h.steps_eq.trans (List.append_nil above)
  rw [definedSteps_max (d := d) (by rw [hsteps]; exact h.countP_defining), hsteps]

theorem Place.definedSteps (h : p.Place above (step :: below) d r) (hstep : step ≠ .required) :
    p.definedSteps (Int16.ofNat d) = above.length :=
  definedSteps_of_split h.steps_eq (by simpa [Repetition.isDefining] using hstep) h.countP_defining

/-- Above a repeated step, only optional steps follow the last repeated one, and a further child at
the step shares the steps up to that one. -/
theorem Place.exists_split (h : p.Place above (.repeated :: below) d r) (hp : p.RepeatedFirst) :
    ∃ front opts, above = front ++ .repeated :: opts ∧ (∀ step ∈ opts, step = .optional) ∧
      p.sharedSteps (Int16.ofNat (r + 1)) = front.length + 1 := by
  have hmem : Repetition.repeated ∈ above.reverse :=
    List.mem_reverse.2 (List.mem_of_mem_head? h.head?_above)
  obtain ⟨opts, front, hsplit, hnot⟩ := List.eq_append_cons_of_mem hmem
  have habove : above = front.reverse ++ .repeated :: opts.reverse := by
    rw [← List.reverse_reverse above, hsplit]
    simp
  have hopt : ∀ step ∈ opts.reverse, step = .optional := by
    intro step hstep
    have hfirst : step ≠ .required := by
      have hpair := hp
      rw [RepeatedFirst, h.steps_eq, List.pairwise_append] at hpair
      have hin : step ∈ above := habove ▸ List.mem_append_right _ (List.mem_cons_of_mem _ hstep)
      exact fun heq => hpair.2.2 step hin .repeated List.mem_cons_self ⟨heq, rfl⟩
    cases step with
    | required => exact absurd rfl hfirst
    | optional => rfl
    | repeated => exact absurd (List.mem_reverse.1 hstep) hnot
  refine ⟨front.reverse, opts.reverse, habove, hopt, ?_⟩
  have hsteps : p.steps = front.reverse ++ .repeated :: (opts.reverse ++ .repeated :: below) := by
    rw [h.steps_eq, habove, List.append_assoc]
    rfl
  have hcount : front.reverse.countP Repetition.isRepeated = r := by
    have hzero : opts.reverse.countP Repetition.isRepeated = 0 :=
      List.countP_eq_zero.2 fun step hstep => by rw [hopt step hstep]; decide
    have hall := h.countP_repeated
    rw [habove, List.countP_append, List.countP_cons_of_pos rfl, hzero] at hall
    omega
  have hshared := sharedSteps_of_split hsteps (List.mem_append_right _ List.mem_cons_self)
  rwa [hcount] at hshared

end Pattern

namespace ParentLists

variable {p : Pattern} {above below : List Repetition} {d r lead : Nat}
variable {pre mid here : List (List Nat)}

/-- The levels of an entry as they are kept. -/
def levels (entry : Nat × Nat) : Int16 × Int16 := (Int16.ofNat entry.1, Int16.ofNat entry.2)

/-! ## Adding entries one after the other -/

theorem addAll_append {xs ys : List (Int16 × Int16)} {l l' : ParentLists}
    (h : addAll xs l = .ok () l') : addAll (xs ++ ys) l = addAll ys l' := by
  induction xs generalizing l with
  | nil =>
    cases h
    rfl
  | cons x xs ih =>
    simp only [addAll, bind, EStateM.bind, List.cons_append] at h ⊢
    split at h
    next _ _ hadd => exact ih h
    next => cases h

theorem addAll_flatMap {α : Type} {entries : α → List (Nat × Nat)} {state : List α → ParentLists}
    (h : ∀ done a, addAll ((entries a).map levels) (state done) = .ok () (state (done ++ [a])))
    (done as : List α) :
    addAll ((as.flatMap entries).map levels) (state done) = .ok () (state (done ++ as)) := by
  induction as generalizing done with
  | nil => rw [List.append_nil]; rfl
  | cons a as ih =>
    rw [List.flatMap_cons, List.map_append, addAll_append (h done a), ih, List.append_assoc]
    rfl

/-! ## Opening the path to a place -/

/-- An entry with repetition level `lead` turns the lists of the steps above a place from `before`
into `path`, where the nodes last opened are those above the place. -/
inductive Opens (p : Pattern) (above : List Repetition) (lead : Nat) :
    (before path : List (List Nat)) → Prop
  | mk (pre mid : List (List Nat)) (shared : p.sharedSteps (Int16.ofNat lead) = pre.length)
    (shared_open : OpenPath 0 pre) (length_eq : above.length = (pre ++ mid).length) :
    Opens p above lead (pre ++ mid)
      (pre ++ grow (lastNode 0 pre) (above.drop pre.length) mid)

variable {before path here : List (List Nat)} {list : List Nat} {step : Repetition}

theorem length_drop_of_eq {pre mid : List (List Nat)} (h : above.length = (pre ++ mid).length) :
    (above.drop pre.length).length = mid.length := by
  rw [List.length_drop, h, List.length_append]
  omega

theorem Opens.openPath (h : Opens p above lead before path) : OpenPath 0 path := by
  obtain ⟨pre, mid, -, hpre, hlen⟩ := h
  exact openPath_append.2 ⟨hpre, openPath_grow (length_drop_of_eq hlen) _⟩

theorem Opens.length_eq (h : Opens p above lead before path) : path.length = above.length := by
  obtain ⟨pre, mid, -, -, hlen⟩ := h
  rw [hlen, List.length_append, length_grow, List.length_append]

theorem Opens.next (h : Opens p above lead before path) (step : Repetition) (list : List Nat) :
    Opens p (above ++ [step]) lead (before ++ [list])
      (path ++ [openNode (lastNode 0 path) step list]) := by
  obtain ⟨pre, mid, hshared, hpre, hlen⟩ := h
  have hdrop : (above ++ [step]).drop pre.length = above.drop pre.length ++ [step] :=
    List.drop_append_of_le_length (by rw [hlen, List.length_append]; omega)
  have hlen' : (above ++ [step]).length = (pre ++ (mid ++ [list])).length := by
    simp only [List.length_append, List.length_singleton] at hlen ⊢
    omega
  have hnext := Opens.mk pre (mid ++ [list]) hshared hpre hlen'
  rw [hdrop, grow_append (length_drop_of_eq hlen), ← List.append_assoc, ← List.append_assoc]
    at hnext
  rwa [lastNode_append]

theorem opens_root (p : Pattern) (list : List Nat) :
    Opens p [.repeated] 0 ([] ++ [list]) ([] ++ [list ++ [0]]) := by
  have hroot : Opens p [.repeated] 0 ([] ++ [list]) ([] ++ [openNode 0 .repeated list]) :=
    Opens.mk [] [list] p.sharedSteps_zero trivial rfl
  rwa [openNode_repeated] at hroot

/-- A further child at a repeated step opens only its own node: the steps between it and the
repeated step above it are optional, and open already. -/
theorem opens_again (hp : p.RepeatedFirst) (hplace : p.Place above (.repeated :: below) d r)
    (hpath : OpenPath 0 path) (hlen : path.length = above.length) (list : List Nat) :
    Opens p (above ++ [.repeated]) (r + 1) (path ++ [list])
      (path ++ [list ++ [lastNode 0 path]]) := by
  obtain ⟨front, opts, rfl, hopts, hshared⟩ := hplace.exists_split hp
  obtain ⟨pre, mid, rfl, hpre⟩ : ∃ pre mid, path = pre ++ mid ∧ pre.length = front.length + 1 := by
    refine ⟨path.take (front.length + 1), path.drop (front.length + 1),
      (List.take_append_drop ..).symm, List.length_take_of_le ?_⟩
    rw [hlen, List.length_append, List.length_cons]
    omega
  have hmid : opts.length = mid.length := by
    rw [List.length_append, List.length_append, List.length_cons] at hlen
    omega
  obtain ⟨hopen, hrest⟩ := openPath_append.1 hpath
  have hdrop : (front ++ Repetition.repeated :: opts ++ [Repetition.repeated]).drop pre.length =
      opts ++ [Repetition.repeated] := by
    rw [hpre, List.append_assoc, List.drop_length_add_append]
    rfl
  have hagain : Opens p (front ++ .repeated :: opts ++ [.repeated]) (r + 1) (pre ++ (mid ++ [list]))
      _ := .mk pre (mid ++ [list]) (hshared.trans hpre.symm) hopen (by
        simp only [List.length_append, List.length_cons] at hlen ⊢
        omega)
  rw [hdrop, grow_append hmid, grow_eq_self hopts hrest, ← List.append_assoc, ← List.append_assoc]
    at hagain
  rw [lastNode_append, ← openNode_repeated]
  exact hagain

/-- Adding an entry opens the path to its place. -/
theorem addAll_entry (h : Opens p above lead before path) (hp : p.steps = above ++ below)
    (hd : p.definedSteps (Int16.ofNat d) = above.length) (here : List (List Nat)) :
    addAll [levels (d, lead)] ⟨p, toArrays (before ++ here)⟩ =
      .ok () ⟨p, toArrays (path ++ here)⟩ := by
  obtain ⟨pre, mid, hr, hpath, hlen⟩ := h
  have hown : (p.steps.take (p.definedSteps (Int16.ofNat d))).drop
      (p.sharedSteps (Int16.ofNat lead)) = above.drop pre.length := by
    rw [hd, hr, hp, List.take_left]
  have hlength := length_drop_of_eq hlen
  have hroot : pre = [] → (above.drop pre.length).head? ≠ some .optional := by
    rintro rfl
    have hhead := p.root_repeated
    rw [hp] at hhead
    cases above with
    | nil => simp
    | cons root rest => simp_all
  have hle : (above.drop pre.length).length ≤ (mid ++ here).length := by
    rw [hlength, List.length_append]
    omega
  have hgrow := grow_append hlength (lastNode 0 pre) [] here
  rw [List.append_nil, grow_nil] at hgrow
  have hopen := openSteps_toArrays (Int16.ofNat d) (Int16.ofNat lead) hpath hroot hle
  rw [hgrow, ← List.append_assoc, ← List.append_assoc] at hopen
  simp only [addAll, levels, add, bind, EStateM.bind, pure, EStateM.pure]
  rw [hown, hr, hopen]

/-! ## Adding what is below a node -/

/-- The entries of a node, added where the node is still missing, append the node and all that
stands below it. -/
def Appends (p : Pattern) (below : List Repetition) : Prop :=
  ∀ {above : List Repetition} {d r lead : Nat} {before path here : List (List Nat)}
    (node : Nested below), p.Place above below d r → Opens p above lead before path →
    here.length = below.length → Bounded (lastNode 0 path) here →
    addAll ((shredFrom below d r lead node).map levels) ⟨p, toArrays (before ++ here)⟩ =
      .ok () ⟨p, toArrays (path ++ appendBelow below (lastNode 0 path) [node] here)⟩

/-- The lists once some children of node `parent` have been appended to the list of their step, and
what is below them to the lists of the steps further down. -/
def withChildren (p : Pattern) (path : List (List Nat)) (parent : Nat) (list : List Nat)
    (lists : List (List Nat)) (children : List (Nested below)) : ParentLists :=
  ⟨p, toArrays (path ++ (list ++ List.replicate children.length parent) ::
    appendBelow below list.length children lists)⟩

variable {lists : List (List Nat)} {parent : Nat}

theorem withChildren_nil : withChildren p path parent list lists ([] : List (Nested below)) =
    ⟨p, toArrays (path ++ list :: lists)⟩ := by
  rw [withChildren, appendBelow_nil, List.length_nil, List.replicate_zero, List.append_nil]

theorem withChildren_children (node : Nested (step :: below)) :
    withChildren p path parent list lists node.children =
      ⟨p, toArrays (path ++ appendBelow (step :: below) parent [node] (list :: lists))⟩ := by
  rw [appendBelow, parentsFrom_cons, parentsFrom_nil, List.append_nil, List.flatMap_singleton]
  rfl

theorem addAll_child (h : Appends p below) (hplace : p.Place above below d r)
    (done : List (Nested below))
    (hopen : Opens p above lead (before ++ [list ++ List.replicate done.length parent])
      (path ++ [list ++ List.replicate done.length parent ++ [parent]]))
    (hlists : lists.length = below.length) (hbound : Bounded list.length lists)
    (child : Nested below) :
    addAll ((shredFrom below d r lead child).map levels)
        (withChildren p before parent list lists done) =
      .ok () (withChildren p path parent list lists (done ++ [child])) := by
  have hlast : lastNode 0 (path ++ [list ++ List.replicate done.length parent ++ [parent]]) =
      list.length + done.length := by
    rw [lastNode_append, lastNode, lastNode, List.length_append, List.length_append,
      List.length_replicate, List.length_singleton, Nat.add_sub_cancel]
  have hadd := h child hplace hopen ((length_appendBelow list.length done lists).trans hlists)
    (hlast ▸ hbound.appendBelow done)
  rw [hlast, ← appendBelow_append, List.append_assoc, List.append_assoc] at hadd
  rw [withChildren, withChildren, List.length_append, List.length_singleton, List.replicate_succ',
    ← List.append_assoc list]
  exact hadd

theorem appends_leaf (p : Pattern) : Appends p [] := by
  intro above d r lead before path here node hplace hopen hlen hbound
  have hentry := addAll_entry hopen hplace.steps_eq hplace.definedSteps_leaf here
  obtain rfl := List.length_eq_zero_iff.1 hlen
  exact hentry

theorem Appends.cons (h : Appends p below) (hp : p.RepeatedFirst) (step : Repetition) :
    Appends p (step :: below) := by
  intro above d r lead before path here node hplace hopen hlen hbound
  obtain ⟨list, lists, rfl⟩ : ∃ list lists, here = list :: lists := by
    cases here with
    | nil => cases hlen
    | cons list lists => exact ⟨list, lists, rfl⟩
  rw [← withChildren_children, shredFrom]
  have hallows := node.allows_children
  cases hchildren : node.children with
  | nil =>
    have hstep : step ≠ .required := by
      rintro rfl
      rw [hchildren] at hallows
      cases hallows
    rw [withChildren_nil]
    exact addAll_entry hopen hplace.steps_eq (hplace.definedSteps hstep) _
  | cons child others =>
    have hlists : lists.length = below.length := Nat.succ.inj hlen
    -- the first child goes on with the entry of its parent
    have hfirst : addAll ((shredFrom below (nextDefinition d step) (nextRepetition r step) lead
          child).map levels) ⟨p, toArrays (before ++ list :: lists)⟩ =
        .ok () (withChildren p path (lastNode 0 path) list lists [child]) := by
      have hnew := hopen.next step list
      rw [openNode_of_lt hbound.1, ← List.append_nil list] at hnew
      have hadd := addAll_child h hplace.next [] hnew hlists hbound.2 child
      rwa [withChildren_nil] at hadd
    dsimp only
    rw [List.map_append, addAll_append hfirst]
    cases step with
    | required | optional =>
      obtain rfl : others = [] := by
        have hle := hallows.le_one (by decide)
        rw [hchildren] at hle
        exact List.length_eq_zero_iff.1 (Nat.le_zero.1 (Nat.le_of_succ_le_succ hle))
      rfl
    | repeated =>
      refine addAll_flatMap (fun done other => ?_) [child] others
      exact addAll_child h hplace.next done
        (opens_again hp hplace hopen.openPath hopen.length_eq _) hlists hbound.2 other

theorem appends_of_repeatedFirst (hp : p.RepeatedFirst) (below : List Repetition) :
    Appends p below := by
  induction below with
  | nil => exact appends_leaf p
  | cons step below ih => exact ih.cons hp step

/-! ## Records -/

theorem addAll_shred (hp : p.RepeatedFirst) {steps : List Repetition} (hsteps : p.steps = steps)
    (records : Nested steps) :
    addAll ((shred steps records).map levels) (.empty p) =
      .ok () ⟨p, toArrays (parentLists steps [records])⟩ := by
  obtain ⟨below, hroot⟩ := p.exists_steps_eq
  obtain rfl : steps = .repeated :: below := hsteps.symm.trans hroot
  have hempty : empty p = withChildren p [] 0 [] (List.replicate below.length [])
      ([] : List (Nested below)) := by
    rw [withChildren_nil, empty, hsteps, toArrays, List.nil_append, List.map_cons,
      List.map_replicate]
    rfl
  have hall : withChildren p [] 0 [] (List.replicate below.length []) records.children =
      ⟨p, toArrays (parentLists (.repeated :: below) [records])⟩ := by
    rw [withChildren_children, ← appendBelow_replicate]
    rfl
  rw [hempty, ← hall, shred]
  refine addAll_flatMap (fun done record => ?_) [] records.children
  exact addAll_child (appends_of_repeatedFirst hp below) (Pattern.place_root hsteps) done
    (opens_root p _) List.length_replicate (Bounded.replicate _ _) record

/-- The levels of shredded records, fed to a builder without nodes, give at every step the parents
of its nodes in document order. -/
theorem addLevels_shred (p : Pattern) (hp : p.RepeatedFirst) (records : Nested p.steps) :
    addLevels ((shred p.steps records).map fun entry => Int16.ofNat entry.1)
        ((shred p.steps records).map fun entry => Int16.ofNat entry.2) (.empty p) =
      .ok () ⟨p, toArrays (parentLists p.steps [records])⟩ := by
  have hlevels : ((shred p.steps records).map fun entry => Int16.ofNat entry.1).zip
      ((shred p.steps records).map fun entry => Int16.ofNat entry.2) =
      (shred p.steps records).map levels := List.zip_map'
  rw [addLevels, if_neg (by simp), hlevels, addAll_shred hp rfl]

/-- Three records with an optional list: one of two elements, none, and one without elements. -/
theorem addLevels_shred_optional_list :
    Pattern.RepeatedFirst ⟨[.repeated, .optional, .repeated], rfl, by decide⟩ ∧
      addLevels [2, 2, 0, 1] [0, 1, 0, 0]
          (.empty ⟨[.repeated, .optional, .repeated], rfl, by decide⟩) =
        .ok () ⟨⟨[.repeated, .optional, .repeated], rfl, by decide⟩,
          #[#[0, 0, 0], #[0, 2], #[0, 0]]⟩ :=
  ⟨by decide, addLevels_shred ⟨[.repeated, .optional, .repeated], rfl, by decide⟩ (by decide)
    ⟨[⟨[⟨[(), ()], trivial⟩], Nat.le_refl 1⟩, ⟨[], Nat.zero_le 1⟩,
      ⟨[⟨[], trivial⟩], Nat.le_refl 1⟩], trivial⟩⟩

end ParentLists

end WireColumns
