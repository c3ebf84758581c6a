namespace LoxLexer

abbrev Text := List Char

def Text.lineFeeds (text : Text) : Nat := text.count '\n'

@[simp] theorem Text.lineFeeds_nil : Text.lineFeeds [] = 0 := rfl

@[simp] theorem Text.lineFeeds_cons (c : Char) (text : Text) :
    Text.lineFeeds (c :: text) = Text.lineFeeds text + if c = '\n' then 1 else 0 := by
  simp [lineFeeds, List.count_cons]

@[simp] theorem Text.lineFeeds_append (a b : Text) :
    Text.lineFeeds (a ++ b) = Text.lineFeeds a + Text.lineFeeds b :=
  List.count_append

end LoxLexer
