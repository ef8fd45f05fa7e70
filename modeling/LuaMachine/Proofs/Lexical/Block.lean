/-
  LOCALS AND BLOCKS COME AND GO. Declaring a local adds it behind the others; making it visible is another
  step. A block that ends takes with it what was declared in it.
-/
import LuaMachine.Proofs.Lexical.Judgement

namespace LuaMachine

open Lexical

/-! ## 1. Changes of a draft -/

namespace Draft

variable {d : Draft}

theorem alike_mapLocal (reg : Nat) {f : DraftLocal → DraftLocal} (hf : ∀ v, (f v).name = v.name) :
    d.Alike (Compile.mapLocal d reg f) := by
  unfold Compile.mapLocal
  split
  · next i _ =>
    refine ⟨rfl, Array.ext_getElem? fun j => ?_, rfl, rfl, rfl, rfl⟩
    rw [Array.getElem?_map, Array.getElem?_map, Array.getElem?_modify]
    split
    · cases d.locals[j]? with
      | none => rfl
      | some v => exact congrArg some (hf v)
    · rfl
  · exact .refl d

theorem names_declare (hk : d.Known) (n : Bytes) :
    ({ d with declared := d.declared.push d.locals.size, locals := d.locals.push ⟨n, 0, 0⟩ } : Draft).names = d.names ++ [n] := by
  have hold : ∀ i ∈ d.declared.toList, ((d.locals.push ⟨n, 0, 0⟩)[i]?.map (·.name)).getD [] =
      (d.locals[i]?.map (·.name)).getD [] := by
    intro i hi
    rw [Array.getElem?_push_lt (hk i (Array.mem_toList_iff.mp hi)), ← Array.getElem?_eq_getElem]
  have hnew : ((d.locals.push ⟨n, 0, 0⟩)[d.locals.size]?.map (·.name)).getD [] = n := by
    rw [Array.getElem?_push_size]
    rfl
  unfold names
  rw [Array.toList_push, List.map_append, List.map_singleton, List.map_congr_left hold, hnew]

theorem known_declare (hk : d.Known) (n : Bytes) :
    ({ d with declared := d.declared.push d.locals.size, locals := d.locals.push ⟨n, 0, 0⟩ } : Draft).Known := by
  intro i hi
  show i < (d.locals.push _).size
  rw [Array.size_push]
  rcases Array.mem_push.mp hi with hi | rfl
  · exact Nat.lt_succ_of_lt (hk i hi)
  · exact Nat.lt_succ_self _

theorem endLocals_spec (level : Nat) (hk : d.Known) : (Compile.endLocals level d).Known ∧
    (Compile.endLocals level d).scoping = ⟨d.names.take level, min d.active level, d.blocks.map (·.active)⟩ ∧
    (Compile.endLocals level d).upvalues = d.upvalues ∧ (Compile.endLocals level d).protos = d.protos := by
  have hgo : ∀ (pc n : Nat) (d : Draft), d.Alike (Compile.endLocals.go level pc n d) := by
    intro pc n
    induction n with
    | zero => exact .refl
    | succ n ih =>
      intro d
      have hfirst : d.Alike (Compile.mapLocal d (level + n) fun v => { v with stop := pc }) := alike_mapLocal _ fun _ => rfl
      exact hfirst.trans (ih _)
  have hsame := hgo d.pc (d.active - level) d
  unfold Compile.endLocals
  dsimp only
  generalize Compile.endLocals.go level d.pc (d.active - level) d = d' at hsame ⊢
  refine ⟨fun i hi => hsame.known hk i ?_, ?_, hsame.upvalues, hsame.protos⟩
  · rw [← Array.mem_toList_iff, Array.take_eq_extract, Array.toList_extract] at hi
    exact Array.mem_toList_iff.mp (List.mem_of_mem_take hi)
  refine Scoping.ext ?_ ?_ ?_
  · show (d'.declared.take level).toList.map _ = _
    rw [Array.take_eq_extract, Array.toList_extract, List.map_take]
    exact congrArg (List.take level) hsame.same_names
  · exact congrArg (min · level) hsame.active
  · exact congrArg (List.map (·.active)) hsame.blocks

end Draft

def Scoping.outside (sc : Scoping) : Scoping :=
  match sc.levels with
  | [] => sc
  | level :: levels => ⟨sc.names.take level, min sc.active level, levels⟩

def Scoping.ahead (ns more : List Bytes) (levels : List Nat) : Scoping := ⟨ns ++ more, ns.length, levels⟩

@[simp] theorem Scoping.visible_ahead (ns more : List Bytes) (levels : List Nat) : (ahead ns more levels).visible = ns :=
  List.take_left

namespace Lexical

open Compile

variable {α β γ : Type} {t : Token} {sc : Scoping}

/-! ## 2. Steps -/

theorem Quiet.beginLocal (reg : Nat) : Quiet (Compile.beginLocal reg) := modifyFn fun _ => Draft.alike_mapLocal _ fun _ => rfl

namespace Turns

theorem declare (n : Bytes) : Turns (Compile.declare n) sc fun _ sc' =>
    sc.names.length + 1 ≤ maxLocals ∧ sc' = { sc with names := sc.names ++ [n] } := by
  refine get fun s hsc => ?_
  split
  · exact fail fun _ => ⟨_, rfl⟩
  · next hle =>
    refine modifyFn fun d hd hk => ⟨Draft.known_declare hk n, rfl, rfl, ?_, ?_⟩
    · rw [← hsc]
      exact Nat.le_trans (Nat.le_of_eq (congrArg (· + 1) s.fn.length_names)) (Nat.le_of_not_lt hle)
    · rw [← hd]
      exact congrArg (Scoping.mk · _ _) (Draft.names_declare hk n)

theorem activate (n : Nat) : Turns (Compile.activate n) sc fun _ sc' => sc' = { sc with active := sc.active + n } := by
  induction n generalizing sc with
  | zero =>
    refine Turns.modifyFn (g := id) fun d hd hk => ⟨hk, rfl, rfl, hd⟩
  | succ n ih =>
    refine get fun s _ => quiet (Quiet.beginLocal _) fun _ => ?_
    refine bind (R := fun _ sc' => sc' = { sc with active := sc.active + 1 }) (modifyFn fun d hd hk => ⟨hk, rfl, rfl, ?_⟩) ?_
    · rw [← hd]
      rfl
    · rintro _ _ rfl
      intro s' a s'' hsc hk hrun
      obtain ⟨d, hd, hknown, hu, hp, hr⟩ := ih s' a s'' hsc hk hrun
      refine ⟨d, hd, hknown, hu, hp, hr.trans ?_⟩
      exact congrArg (Scoping.mk _ · _) (by dsimp only; omega)

theorem enterBlock (isLoop : Bool) :
    Turns (Compile.enterBlock isLoop) sc fun _ sc' => sc' = { sc with levels := sc.active :: sc.levels } := by
  refine bind (R := fun _ sc' => sc' = { sc with levels := sc.active :: sc.levels }) (modifyFn fun d hd hk => ⟨hk, rfl, rfl, ?_⟩) ?_
  · rw [← hd]
    rfl
  · rintro _ _ rfl
    exact Quiet.demand.turns _

theorem still {x : Compile α} (hx : Quiet x) : Turns x sc fun _ sc' => sc' = sc := hx.turns sc

theorem optional (b : Bool) {x : Compile Unit} {k : Unit → Compile β} {R : β → Scoping → Prop} (hx : Quiet x)
    (hk : ∀ u, Turns (k u) sc R) : Turns (if b then x >>= k else k ()) sc R := by
  split
  · exact quiet hx hk
  · exact hk ()

theorem handOn (b : Block) (around : List Block) : Turns (do
      Compile.modifyFn fun d =>
        let d := endLocals b.active { d with blocks := around }
        { d with free := d.active, labels := d.labels.take b.firstLabel }
      Compile.demand .blockExit fun d => d.active = b.active
      let gotos := (← MonadState.get).fn.gotos
      match gotos.drop b.firstGoto with
      | [] => return
      | g :: rest =>
        if around.isEmpty then failGoto g
        else
          let rest ← moveOut b (g :: rest)
          Compile.modifyFn fun d => { d with gotos := gotos.take b.firstGoto ++ rest }) sc
      fun _ sc' => sc' = ⟨sc.names.take b.active, min sc.active b.active, around.map (·.active)⟩ := by
  refine bind (R := fun _ sc' => sc' = ⟨sc.names.take b.active, min sc.active b.active, around.map (·.active)⟩)
    (modifyFn fun d hd hk => ?_) ?_
  · obtain ⟨hknown, hscoping, hu, hp⟩ := Draft.endLocals_spec (d := { d with blocks := around }) b.active hk
    refine ⟨hknown, hu, hp, hscoping.trans ?_⟩
    rw [← hd]
    rfl
  · rintro _ _ rfl
    refine quiet Quiet.demand fun _ => get fun s' _ => ?_
    dsimp only
    split
    · exact (Quiet.pure _).turns _
    · split
      · exact fail fun _ => by
          unfold failGoto
          split
          · exact ⟨_, rfl⟩
          · exact ⟨_, rfl⟩
      · exact quiet (Quiet.moveOut _ _) fun _ => still (.modifyFn fun _ => ⟨rfl, rfl, rfl, rfl, rfl, rfl⟩)

/-- **A block ends.** -/
theorem leaveBlock : Turns Compile.leaveBlock sc fun _ sc' => sc' = sc.outside := by
  refine get fun s hsc => ?_
  have hlevels : s.fn.blocks.map (·.active) = sc.levels := congrArg Scoping.levels hsc
  split
  · next hnil =>
    rw [hnil] at hlevels
    have houtside : sc.outside = sc := by
      unfold Scoping.outside
      rw [← hlevels]
      rfl
    rw [houtside]
    exact (Quiet.pure ()).turns sc
  · next b around hblocks =>
    rw [hblocks, List.map_cons] at hlevels
    have houtside : sc.outside = ⟨sc.names.take b.active, min sc.active b.active, around.map (·.active)⟩ := by
      unfold Scoping.outside
      rw [← hlevels]
    rw [houtside]
    dsimp only
    by_cases hcloses : (!around.isEmpty && b.captured) = true
    · rw [if_pos hcloses]
      exact quiet Quiet.jump fun _ => quiet (Quiet.closeOnJump _ _) fun _ => quiet (Quiet.patchHere _) fun _ =>
        optional b.isLoop Quiet.breakLabel fun _ => handOn b around
    · rw [if_neg hcloses]
      exact optional b.isLoop Quiet.breakLabel fun _ => handOn b around

end Turns

namespace Scans

variable {k : Unit → Reader → Compile β} {Q : β → Token → Scoping → Prop} {P : β → Token → Scoping → Context → Passage → Prop}

theorem declare (n : Bytes) (hk : Scans (k ()) t { sc with names := sc.names ++ [n] } Q P) :
    Scans (fun f => Compile.declare n >>= fun a => k a f) t sc Q P := by
  refine turn (.declare n) ?_ ?_
  · rintro _ _ ⟨hlimit, rfl⟩ ht
    have hlength : (sc.names ++ [n]).length = sc.names.length + 1 := List.length_append
    refine ⟨Nat.le_trans ht.active ?_, ?_, ht.level⟩
    · exact hlength ▸ Nat.le_succ _
    · exact hlength ▸ hlimit
  · rintro _ _ ⟨-, rfl⟩
    exact hk

theorem activate (n : Nat) (hn : sc.active + n ≤ sc.names.length)
    (hk : Scans (k ()) t { sc with active := sc.active + n } Q P) :
    Scans (fun f => Compile.activate n >>= fun a => k a f) t sc Q P := by
  refine turn (.activate n) ?_ ?_
  · rintro _ _ rfl ht
    exact ⟨hn, ht.declared, ht.level⟩
  · rintro _ _ rfl
    exact hk

theorem declareFirst {ns : List Bytes} {ls : List Nat} (n : Bytes) (hk : Scans (k ()) t (.ahead ns [n] ls) Q P) :
    Scans (fun f => Compile.declare n >>= fun a => k a f) t (.plain ns ls) Q P := declare n hk

theorem declareNext {ns more : List Bytes} {ls : List Nat} (n : Bytes) (hk : Scans (k ()) t (.ahead ns (more ++ [n]) ls) Q P) :
    Scans (fun f => Compile.declare n >>= fun a => k a f) t (.ahead ns more ls) Q P := by
  refine declare n ?_
  rw [show ({ Scoping.ahead ns more ls with names := (Scoping.ahead ns more ls).names ++ [n] } : Scoping) =
    .ahead ns (more ++ [n]) ls from Scoping.ext (List.append_assoc _ _ _) rfl rfl]
  exact hk

theorem activateAll {ns : List Bytes} {ls : List Nat} (more : List Bytes) (hk : Scans (k ()) t (.plain (ns ++ more) ls) Q P) :
    Scans (fun f => Compile.activate more.length >>= fun a => k a f) t (.ahead ns more ls) Q P := by
  have hlength : ns.length + more.length = (ns ++ more).length := List.length_append.symm
  refine activate _ (Nat.le_of_eq hlength) ?_
  rw [show ({ Scoping.ahead ns more ls with active := (Scoping.ahead ns more ls).active + more.length } : Scoping) =
    .plain (ns ++ more) ls from Scoping.ext rfl hlength rfl]
  exact hk

theorem activateLast {ns more : List Bytes} {ls : List Nat} {Q : Unit → Token → Scoping → Prop}
    {P : Unit → Token → Scoping → Context → Passage → Prop} (hq : Q () t (.plain (ns ++ more) ls))
    (hp : ∀ ctx, P () t (.plain (ns ++ more) ls) ctx .empty) :
    Scans (fun _ => Compile.activate more.length) t (.ahead ns more ls) Q P :=
  (activateAll (k := fun a _ => Pure.pure a) more (.pure hq hp)).congr fun _ => (bind_pure _).symm

theorem enterBlock (isLoop : Bool) (hk : Scans (k ()) t { sc with levels := sc.active :: sc.levels } Q P) :
    Scans (fun f => Compile.enterBlock isLoop >>= fun a => k a f) t sc Q P := by
  refine turn (.enterBlock isLoop) ?_ ?_
  · rintro _ _ rfl ht
    refine ⟨ht.active, ht.declared, ?_⟩
    have hlevel := ht.level
    obtain ⟨names, active, levels⟩ := sc
    cases levels with
    | nil => cases hlevel
    | cons l ls => rwa [List.getLast?_cons_cons]
  · rintro _ _ rfl
    exact hk

theorem enterPlain {ns : List Bytes} {ls : List Nat} (isLoop : Bool) (hk : Scans (k ()) t (.plain ns (ns.length :: ls)) Q P) :
    Scans (fun f => Compile.enterBlock isLoop >>= fun a => k a f) t (.plain ns ls) Q P := enterBlock isLoop hk

/-- **A block ends**, and what was declared in it is gone. -/
theorem leaveBlock {ns names : List Bytes} {l : Nat} {ls : List Nat} (hn : ns <+: names)
    (hk : Scans (k ()) t (.plain ns (l :: ls)) Q P) :
    Scans (fun f => Compile.leaveBlock >>= fun a => k a f) t (.plain names (ns.length :: l :: ls)) Q P := by
  have hle : ns.length ≤ names.length := hn.length_le
  have houtside : (Scoping.plain names (ns.length :: l :: ls)).outside = .plain ns (l :: ls) :=
    Scoping.ext (List.prefix_iff_eq_take.mp hn).symm (Nat.min_eq_right hle) rfl
  refine turn .leaveBlock ?_ ?_
  · rintro _ _ rfl ht
    rw [houtside]
    exact ⟨Nat.le_refl _, Nat.le_trans hle ht.declared, List.getLast?_cons_cons ▸ ht.level⟩
  · rintro _ _ rfl
    rw [houtside]
    exact hk

theorem leaveLast {ns names : List Bytes} {l : Nat} {ls : List Nat} {Q : Unit → Token → Scoping → Prop}
    {P : Unit → Token → Scoping → Context → Passage → Prop} (hn : ns <+: names) (hq : Q () t (.plain ns (l :: ls)))
    (hp : ∀ ctx, P () t (.plain ns (l :: ls)) ctx .empty) :
    Scans (fun _ => Compile.leaveBlock) t (.plain names (ns.length :: l :: ls)) Q P :=
  (leaveBlock (k := fun a _ => Pure.pure a) hn (.pure hq hp)).congr fun _ => (bind_pure _).symm

end Scans

/-! ## 3. Constructs -/

def Reads (c : Reader → Compile α) (P : Context → List Bytes → Passage → Prop) : Prop :=
  ∀ t sc, Scans c t sc (fun _ _ sc' => sc' = sc) fun _ _ _ ctx x => P ctx sc.visible x

def Stays (c : Reader → Compile α) (P : Context → List Bytes → Passage → Prop) : Prop :=
  ∀ t ns l ls, Scans c t (.plain ns (l :: ls)) (fun _ _ sc' => sc' = .plain ns (l :: ls)) fun _ _ _ ctx x => P ctx ns x

def ReadsWhole (c : Reader → Compile α) (P : Context → List Bytes → Bool → Passage → Prop) : Prop :=
  ∀ t sc, Scans c t sc (fun _ _ sc' => sc' = sc) fun _ t' _ ctx x =>
    ∃ g, P ctx sc.visible g x ∧ (g = true → t' ≠ .symbol .lparen)

def Continues (ctx : Context) (ns : List Bytes) (x : Passage) (t : Token) (ns' : List Bytes) : Prop :=
  ∀ y last, y.Starts t → Statements ctx ns' y last → Statements ctx ns (x ++ y) last

def Runs (c : Reader → Compile α) : Prop :=
  ∀ t ns l ls, Scans c t (.plain ns (l :: ls)) (fun _ _ sc' => ∃ more, sc' = .plain (ns ++ more) (l :: ls))
    fun _ t' sc' ctx x => Continues ctx ns x t' sc'.names

theorem Continues.statements {ctx : Context} {ns ns' : List Bytes} {x : Passage} {t : Token} (h : Continues ctx ns x t ns') :
    Statements ctx ns x ns' := Passage.append_empty x ▸ h .empty ns' (Passage.starts_empty t) .nil

theorem Statement.continues {ctx : Context} {ns ns' : List Bytes} {g : Bool} {x : Passage} {t : Token}
    (h : Statement ctx ns g x ns') (hg : g = true → t ≠ .symbol .lparen) : Continues ctx ns x t ns' :=
  fun _ _ hy => .cons h fun hgo hhead => hg hgo (hy _ hhead).symm

theorem Statement.before {ctx : Context} {ns ns' ns'' : List Bytes} {x y : Passage} {t : Token}
    (h : Statement ctx ns false x ns') (h' : Continues ctx ns' y t ns'') : Continues ctx ns (x ++ y) t ns'' := by
  intro z last hz hstatements
  rw [Passage.append_assoc]
  exact .cons h (fun hg => absurd hg Bool.false_ne_true) (h' z last hz hstatements)

theorem Continues.append {ctx : Context} {ns ns' ns'' : List Bytes} {x y : Passage} {t t' : Token}
    (h : Continues ctx ns x t ns') (hy : y.Between t t') (h' : Continues ctx ns' y t' ns'') :
    Continues ctx ns (x ++ y) t' ns'' := by
  intro z last hz hstatements
  rw [Passage.append_assoc]
  exact h (y ++ z) last (hy.starts hz) (h' z last hz hstatements)

theorem ReadsWhole.reads {c : Reader → Compile α} {P : Context → List Bytes → Bool → Passage → Prop} (h : ReadsWhole c P) :
    Reads c fun ctx ns x => ∃ g, P ctx ns g x := fun t sc =>
  (h t sc).imp (fun _ _ _ h => h) fun _ _ _ _ _ _ hx => hx.imp fun _ => And.left

theorem Runs.nothing : Runs fun _ => Pure.pure () := fun _ _ _ _ =>
  .pure ⟨[], by rw [List.append_nil]⟩ fun _ _ _ _ h => h

theorem Reads.stays {c : Reader → Compile α} {P : Context → List Bytes → Passage → Prop} (h : Reads c P) : Stays c P := by
  intro t ns l ls
  have := h t (.plain ns (l :: ls))
  rwa [Scoping.visible_plain] at this

theorem Scans.discard {c : Reader → Compile α} {Q : Token → Scoping → Prop} {P : Token → Scoping → Context → Passage → Prop}
    (h : Scans c t sc (fun _ => Q) fun _ => P) : Scans (fun f => Functor.discard (c f)) t sc (fun _ => Q) fun _ => P := by
  have hrun : ∀ f, Functor.discard (c f) = c f >>= fun _ => Pure.pure () := fun f => by
    unfold Functor.discard
    rw [map_const, Function.comp_apply, ← bind_pure_comp]
  refine Scans.congr (h.andThen fun a t' sc' hq => .pure hq fun ctx x hx => ?_) hrun
  rw [Passage.append_empty]
  exact hx

theorem Reads.discard {c : Reader → Compile α} {P : Context → List Bytes → Passage → Prop} (h : Reads c P) :
    Reads (fun f => Functor.discard (c f)) P := fun t sc => Scans.discard (h t sc)

namespace Scans

variable {c : Reader → Compile α} {k : α → Reader → Compile β} {Q : β → Token → Scoping → Prop}
  {P : β → Token → Scoping → Context → Passage → Prop}

theorem thenQuiet {c : Reader → Compile Unit} {k : Unit → Compile Unit} {Q : Unit → Token → Scoping → Prop}
    {P : Unit → Token → Scoping → Context → Passage → Prop} (h : Scans c t sc Q P) (hk : Quiet (k ())) :
    Scans (fun f => c f >>= fun a => k a) t sc Q P := by
  refine h.andThen fun a t' sc' hq => .still hk (fun _ => hq) fun _ ctx x hx => ?_
  rw [Passage.append_empty]
  exact hx

theorem read {R : Context → List Bytes → Passage → Prop} (h : Reads c R) (hk : ∀ a t',
      Scans (k a) t' sc Q fun b t'' sc' ctx y => ∀ x, R ctx sc.visible x → P b t'' sc' ctx (x ++ y)) :
    Scans (fun f => c f >>= fun a => k a f) t sc Q P := by
  refine (h t sc).andThen ?_
  rintro a t' _ rfl
  exact hk a t'

theorem readWhole {R : Context → List Bytes → Bool → Passage → Prop} (h : ReadsWhole c R) (hk : ∀ a t',
      Scans (k a) t' sc Q fun b t'' sc' ctx y => ∀ g x, R ctx sc.visible g x → (g = true → t' ≠ .symbol .lparen) →
        P b t'' sc' ctx (x ++ y)) : Scans (fun f => c f >>= fun a => k a f) t sc Q P := by
  refine (h t sc).andThen ?_
  rintro a t' _ rfl
  refine (hk a t').imp (fun _ _ _ h => h) ?_
  rintro _ _ _ ctx y - hy x ⟨g, hx, hg⟩
  exact hy g x hx hg

theorem stay {R : Context → List Bytes → Passage → Prop} {ns : List Bytes} {l : Nat} {ls : List Nat} (h : Stays c R)
    (hk : ∀ a t', Scans (k a) t' (.plain ns (l :: ls)) Q fun b t'' sc' ctx y => ∀ x, R ctx ns x → P b t'' sc' ctx (x ++ y)) :
    Scans (fun f => c f >>= fun a => k a f) t (.plain ns (l :: ls)) Q P := by
  refine (h t ns l ls).andThen ?_
  rintro a t' _ rfl
  exact hk a t'

theorem run {ns : List Bytes} {l : Nat} {ls : List Nat} (h : Runs c) (hk : ∀ a t' more,
      Scans (k a) t' (.plain (ns ++ more) (l :: ls)) Q
        fun b t'' sc' ctx y => ∀ x, Statements ctx ns x (ns ++ more) → P b t'' sc' ctx (x ++ y)) :
    Scans (fun f => c f >>= fun a => k a f) t (.plain ns (l :: ls)) Q P := by
  refine (h t ns l ls).andThen ?_
  rintro a t' _ ⟨more, rfl⟩
  exact (hk a t' more).imp (fun _ _ _ h => h) fun _ _ _ _ _ _ hy x hx => hy x hx.statements

theorem runMore {ns : List Bytes} {l : Nat} {ls : List Nat} {k : α → Reader → Compile Unit} (h : Runs c)
    (hk : ∀ a t' more, Scans (k a) t' (.plain (ns ++ more) (l :: ls)) (fun _ _ sc' => ∃ more', sc' = .plain (ns ++ more ++ more') (l :: ls))
      fun _ t'' sc' ctx x => Continues ctx (ns ++ more) x t'' sc'.names) :
    Scans (fun f => c f >>= fun a => k a f) t (.plain ns (l :: ls)) (fun _ _ sc' => ∃ more, sc' = .plain (ns ++ more) (l :: ls))
      fun _ t' sc' ctx x => Continues ctx ns x t' sc'.names := by
  refine (h t ns l ls).andThen ?_
  rintro a t' _ ⟨more, rfl⟩
  refine (hk a t' more).between.imp ?_ ?_
  · rintro _ _ _ ⟨more', rfl⟩
    exact ⟨more ++ more', by rw [List.append_assoc]⟩
  · rintro _ _ _ ctx y - ⟨hbetween, hy⟩ x hx
    exact hx.append hbetween hy

theorem occurrence {k : Expr → Reader → Compile β} (n : Bytes) (hk : ∀ a,
      Scans (k a) t sc Q fun b t'' sc' ctx y => P b t'' sc' ctx (⟨[], [⟨n, ctx.scopes sc.visible⟩], []⟩ ++ y)) :
    Scans (fun f => f n >>= fun a => k a f) t sc Q P := by
  refine (named n).andThen ?_
  rintro a _ _ ⟨rfl, rfl⟩
  refine (hk a).imp (fun _ _ _ h => h) fun b _ sc' ctx y _ hy => ?_
  rintro x rfl
  exact hy

end Scans

end Lexical

end LuaMachine
