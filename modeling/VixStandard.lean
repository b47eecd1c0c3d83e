import VixStandard.Task.Await
import VixStandard.Task.Ownership
import VixStandard.Task.Rounds
import VixStandard.Task.Independence
import VixStandard.Task.MoveAssign
import VixStandard.Task.Results
import VixStandard.Task.Wakeup
import VixStandard.Result.Special
import VixStandard.Result.Objects
import VixStandard.Result.Pipeline
import VixStandard.Result.Calls
import VixStandard.Text.RoundTrip
import VixStandard.Text.Across
import VixStandard.Time.Deadline
import VixStandard.Time.Limits
import VixStandard.Time.Units
import VixStandard.Time.Expression
import VixStandard.Time.Chrono
import VixStandard.Time.Laps
import VixStandard.Service.Command
import VixStandard.Result.Noexcept
import VixStandard.Service.Errors
import VixStandard.Service.Programs
import VixStandard.Io.Delivery
import VixStandard.Task.Owners
